import CodeClones.Proofs.Repeat.CommonPrefix
import CodeClones.Repeat.Group

/-!
# Proofs/Repeat/Region — a region holds all occurrences of what it repeats

The runs of large common lengths are cut out of the table whole (`exists_of_mem_runs`,
`exists_mem_runs`).  Since suffixes far apart in the order share no more than any two neighbours
between them (`sharedAt_le_of_places`), the positions of a run share as much as its smallest entry,
and no position outside shares as much as the threshold with one of them (`isRegion_of_mem`).
-/

namespace CodeClones

namespace RepeatTable

/-! ## Runs -/

section Runs

variable {least start s : Nat} {entries run : List Nat}

/-- A run ends before an entry that is too small. -/
theorem lt_of_head?_dropWhile {e : Nat}
    (h : (entries.dropWhile fun e => decide (least ≤ e)).head? = some e) : e < least := by
  have hnot := List.head?_dropWhile_not (fun e => decide (least ≤ e)) entries
  rw [h] at hnot
  simpa using hnot

/-- **A run is cut out whole** — what stands before it and what stands behind it is too small. -/
theorem exists_of_mem_runs (h : (s, run) ∈ runs least start entries) :
    ∃ before after, entries = before ++ run ++ after ∧ s = start + before.length ∧ run ≠ []
      ∧ (∀ e ∈ run, least ≤ e) ∧ (∀ e, before.getLast? = some e → e < least)
      ∧ ∀ e, after.head? = some e → e < least := by
  fun_induction runs least start entries with
  | case1 => exact absurd h List.not_mem_nil
  | case2 start entry entries hlt ih =>
    obtain ⟨before, after, rfl, rfl, hne, hrun, hbefore, hafter⟩ := ih h
    refine ⟨entry :: before, after, rfl, by rw [List.length_cons]; omega, hne, hrun, ?_, hafter⟩
    intro e he
    rw [List.getLast?_cons, Option.some.injEq] at he
    rcases hlast : before.getLast? with - | d
    · rw [hlast, Option.getD_none] at he
      exact he ▸ hlt
    · rw [hlast, Option.getD_some] at he
      exact he ▸ hbefore d hlast
  | case3 start entry entries hge more ih =>
    have hsplit : more ++ entries.dropWhile (fun e => decide (least ≤ e)) = entries :=
      List.takeWhile_append_dropWhile
    rcases List.mem_cons.mp h with heq | h
    · obtain ⟨rfl, rfl⟩ := Prod.mk.inj heq
      refine ⟨[], _, by rw [List.nil_append, List.cons_append, hsplit], rfl, by simp, ?_, by simp,
        fun _ => lt_of_head?_dropWhile⟩
      intro e he
      rcases List.mem_cons.mp he with rfl | he
      · omega
      · exact of_decide_eq_true (p := least ≤ e)
          (List.mem_takeWhile_imp (p := fun e => decide (least ≤ e)) he)
    · obtain ⟨before, after, heq, rfl, hne, hrun, hbefore, hafter⟩ := ih h
      refine ⟨entry :: more ++ before, after, ?_, ?_, hne, hrun, ?_, hafter⟩
      · rw [List.append_assoc, List.append_assoc, ← List.append_assoc before, ← heq,
          List.cons_append, hsplit]
      · rw [List.length_append, List.length_cons]
        omega
      · intro e he
        match before, heq with
        | [], heq =>
          -- the next run would start with an entry that is too small
          obtain ⟨d, rest, rfl⟩ := List.exists_cons_of_ne_nil hne
          have hd : d < least := lt_of_head?_dropWhile (by rw [heq]; rfl)
          have := hrun d List.mem_cons_self
          omega
        | d :: before, _ =>
          rw [List.getLast?_append, Option.or_of_isSome (by simp)] at he
          exact hbefore e he

/-- **Every large entry lies in a run.** -/
theorem exists_mem_runs (start : Nat) {k e : Nat} (hk : entries[k]? = some e) (he : least ≤ e) :
    ∃ s run, (s, run) ∈ runs least start entries ∧ s ≤ start + k ∧ start + k < s + run.length := by
  fun_induction runs least start entries generalizing k with
  | case1 => simp at hk
  | case2 start entry entries hlt ih =>
    match k with
    | 0 =>
      rw [List.getElem?_cons_zero, Option.some.injEq] at hk
      omega
    | k + 1 =>
      rw [List.getElem?_cons_succ] at hk
      obtain ⟨s, run, hmem, hle, hbound⟩ := ih hk
      exact ⟨s, run, hmem, by omega, by omega⟩
  | case3 start entry entries hge more =>
    rename_i ih
    rcases Nat.lt_or_ge k (more.length + 1) with hin | hout
    · refine ⟨start, entry :: more, List.mem_cons_self, by omega, ?_⟩
      rw [List.length_cons]
      omega
    · have hsplit : more ++ entries.dropWhile (fun e => decide (least ≤ e)) = entries :=
        List.takeWhile_append_dropWhile
      have hk' : (entries.dropWhile fun e => decide (least ≤ e))[k - 1 - more.length]?
          = some e := by
        rw [← List.getElem?_append_right (by omega), hsplit, ← hk, ← List.getElem?_cons_succ
          (a := entry), Nat.sub_add_cancel (by omega)]
      obtain ⟨s, run, hmem, hle, hbound⟩ := ih hk'
      exact ⟨s, run, List.mem_cons_of_mem _ hmem, by omega, by omega⟩

end Runs

end RepeatTable

namespace Repeat

/-! ## Sharing across places -/

/-- How many symbols two suffixes of a text share at the start. -/
def sharedAt (text : Array Int) (i j : Nat) : Nat :=
  common (text.toList.drop i) (text.toList.drop j)

section Places

variable {text : Array Int} {order : Array Nat} {i j x y a b k l : Nat}
  (hsorted : Suffix.Sorted (fun a b => decide (a < b)) text order)

include hsorted

theorem not_drop_lt_of_place_le (hi : order[a]? = some i) (hj : order[b]? = some j) (hle : a ≤ b) :
    ¬ text.toList.drop j < text.toList.drop i := by
  intro hlt
  rcases Nat.lt_or_ge a b with hab | hab
  · exact lt_asymm hlt (drop_lt_of_place_lt hsorted hi hj hab)
  · obtain rfl := Nat.le_antisymm hle hab
    rw [hi] at hj
    rw [Option.some.inj hj] at hlt
    exact lt_irrefl _ hlt

/-- **Suffixes share no more than any two neighbours between them.** -/
theorem sharedAt_le_of_places (hi : order[a]? = some i) (hx : order[k]? = some x)
    (hy : order[k + 1]? = some y) (hj : order[b]? = some j) (hak : a ≤ k) (hkb : k < b) :
    sharedAt text i j ≤ sharedAt text x y :=
  (common_le_of_between (not_drop_lt_of_place_le hsorted hi hx hak)
      (not_drop_lt_of_place_le hsorted hx hj hkb.le)).trans
    (common_le_of_between_left (not_drop_lt_of_place_le hsorted hx hy (Nat.le_succ k))
      (not_drop_lt_of_place_le hsorted hy hj hkb))

omit hsorted in
/-- **What all neighbours between share, two suffixes share.** -/
theorem le_sharedAt_of_places (hi : order[a]? = some i) (hj : order[b]? = some j) (hab : a < b)
    (hall : ∀ k x y, a ≤ k → k < b → order[k]? = some x → order[k + 1]? = some y →
      l ≤ sharedAt text x y) : l ≤ sharedAt text i j := by
  induction b generalizing j with
  | zero => omega
  | succ b ih =>
    obtain ⟨x, hx⟩ : ∃ x, order[b]? = some x :=
      ⟨_, Array.getElem?_eq_getElem (Nat.lt_of_succ_lt (Array.getElem?_eq_some_iff.mp hj).1)⟩
    have hlast := hall b x j (by omega) (Nat.lt_succ_self b) hx hj
    rcases Nat.lt_or_ge a b with h | h
    · exact le_common_trans (ih hx h fun k y z hak hkb => hall k y z hak (by omega)) hlast
    · obtain rfl : a = b := by omega
      rw [hi] at hx
      rwa [Option.some.inj hx]

end Places

/-! ## Regions -/

/-- **A region** — at least two positions, in ascending order, that share `length` symbols and, two
of them, no more; every position that shares `least` symbols with one of them is among them. -/
structure IsRegion (text : Array Int) (least : Nat) (region : Repeat) : Prop where
  two_le : 2 ≤ region.positions.length
  ascending : region.positions.Pairwise (· < ·)
  within : ∀ i ∈ region.positions, i < text.size
  least_le : least ≤ region.length
  shared : ∀ i ∈ region.positions, ∀ j ∈ region.positions, region.length ≤ sharedAt text i j
  tight : ∃ i ∈ region.positions, ∃ j ∈ region.positions, i ≠ j ∧ sharedAt text i j = region.length
  closed : ∀ i ∈ region.positions, ∀ j, i ≠ j → least ≤ sharedAt text i j → j ∈ region.positions

/-- An occurrence ends within the text. -/
theorem IsRegion.add_length_le {text : Array Int} {least : Nat} {region : Repeat}
    (h : IsRegion text least region) {i : Nat} (hi : i ∈ region.positions) :
    i + region.length ≤ text.size := by
  have hwithin := h.within i hi
  have hlong := (le_common_iff.mp (h.shared i hi i hi)).1
  rw [List.length_drop, Array.length_toList] at hlong
  omega

/-- Of two positions or more one is not a given one. -/
theorem exists_ne_of_two_le {positions : List Nat} (hascending : positions.Pairwise (· < ·))
    (htwo : 2 ≤ positions.length) (p : Nat) : ∃ q ∈ positions, q ≠ p := by
  have hcard : 1 < positions.toFinset.card := by
    rwa [List.toFinset_card_of_nodup (hascending.imp Nat.ne_of_lt)]
  obtain ⟨q, hq, hne⟩ := Finset.exists_mem_ne hcard p
  exact ⟨q, List.mem_toFinset.mp hq, hne⟩

end Repeat

namespace RepeatTable

open Repeat

theorem lt_size_of_le_sharedAt {text : Array Int} {least i j : Nat} (hleast : 0 < least)
    (hshared : least ≤ sharedAt text i j) : i < text.size := by
  by_contra hge
  rw [sharedAt, List.drop_eq_nil_of_le (i := i) (by rw [Array.length_toList]; omega),
    common_nil_left] at hshared
  omega

section Table

variable {text : Array Int} {order : Array Nat} {least s : Nat} {run : List Nat}
  (hsorted : Suffix.Sorted (fun a b => decide (a < b)) text order)

include hsorted

/-- The common length at a place, as what the suffixes there share. -/
theorem getElem?_lengths {k i j : Nat} (hi : order[k]? = some i) (hj : order[k + 1]? = some j) :
    ((commonLengths text order).toList.drop 1)[k]? = some (sharedAt text i j) := by
  rw [List.getElem?_drop, Array.getElem?_toList, Nat.add_comm]
  exact (commonLengths_spec hsorted).2.2 hi hj

theorem length_lengths : ((commonLengths text order).toList.drop 1).length = text.size - 1 := by
  rw [List.length_drop, Array.length_toList, (commonLengths_spec hsorted).1]

omit hsorted in
theorem size_lengths (text : Array Int) :
    (ofSuffixes (SuffixArray.ofText text)).lengths.size = text.size :=
  (commonLengths_spec (Suffix.sorted_suffixArray text)).1

omit hsorted in
/-- **A run in the order of the suffixes** — from place `b` on its entries are what neighbours
share, and the neighbours at either end share too little. -/
structure RunAt (text : Array Int) (order : Array Nat) (least b : Nat) (run : List Nat) : Prop where
  ne_nil : run ≠ []
  lt_size : b + run.length < text.size
  le_entry : ∀ e ∈ run, least ≤ e
  entry : ∀ {k x y : Nat}, b ≤ k → k < b + run.length → order[k]? = some x →
    order[k + 1]? = some y → run[k - b]? = some (sharedAt text x y)
  edge : ∀ {k x y : Nat}, k + 1 = b ∨ k = b + run.length → order[k]? = some x →
    order[k + 1]? = some y → sharedAt text x y < least

theorem exists_runAt (h : (s, run) ∈ runs least 1 ((commonLengths text order).toList.drop 1)) :
    ∃ b, s = b + 1 ∧ RunAt text order least b run := by
  obtain ⟨before, after, heq, rfl, hne, hrun, hbefore, hafter⟩ := exists_of_mem_runs h
  have hlength := length_lengths hsorted
  rw [heq, List.length_append, List.length_append] at hlength
  have hpos := List.length_pos_iff.mpr hne
  refine ⟨before.length, Nat.add_comm _ _, hne, by omega, hrun, ?_, ?_⟩
  · intro k x y hbk hk hx hy
    have hentry := getElem?_lengths hsorted hx hy
    rwa [heq, List.append_assoc, List.getElem?_append_right hbk,
      List.getElem?_append_left (by omega)] at hentry
  · intro k x y hk hx hy
    have hentry := getElem?_lengths hsorted hx hy
    rcases hk with hk | rfl
    · refine hbefore _ ?_
      rw [List.getLast?_eq_getElem?, ← hk, Nat.add_sub_cancel, ← hentry, heq, List.append_assoc,
        List.getElem?_append_left (by omega)]
    · refine hafter _ ?_
      rw [List.head?_eq_getElem?, ← hentry, heq, List.getElem?_append_right (by
        rw [List.length_append]), List.length_append, Nat.sub_self]

theorem exists_position {k : Nat} (hk : k < text.size) : ∃ p, order[k]? = some p :=
  ⟨_, Array.getElem?_eq_getElem (by rwa [size_of_sorted hsorted])⟩

section Run

variable {b m i j k l : Nat} (hrun : RunAt text order least b run)

include hrun

omit hsorted in
/-- Positions at two places of a run share what is below all its entries. -/
theorem RunAt.le_sharedAt (hmin : ∀ e ∈ run, m ≤ e) (hbk : b ≤ k) (hkl : k < l)
    (hl : l ≤ b + run.length) (hi : order[k]? = some i) (hj : order[l]? = some j) :
    m ≤ sharedAt text i j :=
  le_sharedAt_of_places hi hj hkl fun k' x y hk hlt hx hy =>
    hmin _ (List.mem_of_getElem? (hrun.entry (by omega) (by omega) hx hy))

/-- A position of a run is so far from the end of the text. -/
theorem RunAt.le_sharedAt_self (hmin : ∀ e ∈ run, m ≤ e) (hbk : b ≤ k) (hk : k ≤ b + run.length)
    (hi : order[k]? = some i) : m ≤ sharedAt text i i := by
  have hpos := List.length_pos_iff.mpr hrun.ne_nil
  have hsize := hrun.lt_size
  rw [sharedAt, common_self]
  rcases Nat.lt_or_ge k (b + run.length) with hlt | hge
  · obtain ⟨j, hj⟩ := exists_position hsorted (k := k + 1) (by omega)
    have hshared := hrun.le_sharedAt hmin hbk (Nat.lt_succ_self k) hlt hi hj
    exact hshared.trans (common_le_length _ _)
  · obtain ⟨j, hj⟩ := exists_position hsorted (k := b) (by omega)
    have hshared := hrun.le_sharedAt hmin (Nat.le_refl b) (by omega) hk hj hi
    rw [sharedAt, common_comm] at hshared
    exact hshared.trans (common_le_length _ _)

/-- **A run is closed** — what shares `least` symbols with a position of the run is in the run. -/
theorem RunAt.mem_of_le_sharedAt (hbk : b ≤ k) (hk : k ≤ b + run.length) (hi : order[k]? = some i)
    (hj : order[l]? = some j) (hle : least ≤ sharedAt text i j) : b ≤ l ∧ l ≤ b + run.length := by
  have hsize := hrun.lt_size
  have hlt : l < text.size := by
    rw [← size_of_sorted hsorted]
    exact (Array.getElem?_eq_some_iff.mp hj).1
  constructor
  · by_contra hout
    obtain ⟨x, hx⟩ := exists_position hsorted (k := b - 1) (by omega)
    obtain ⟨y, hy⟩ := exists_position hsorted (k := b - 1 + 1) (by omega)
    have hbetween := sharedAt_le_of_places hsorted hj hx hy hi (by omega) (by omega)
    have hedge := hrun.edge (Or.inl (by omega)) hx hy
    rw [sharedAt, common_comm, ← sharedAt] at hbetween
    omega
  · by_contra hout
    obtain ⟨x, hx⟩ := exists_position hsorted (k := b + run.length) (by omega)
    obtain ⟨y, hy⟩ := exists_position hsorted (k := b + run.length + 1) (by omega)
    have hbetween := sharedAt_le_of_places hsorted hi hx hy hj hk (by omega)
    have hedge := hrun.edge (Or.inr rfl) hx hy
    omega

end Run

omit hsorted in
/-- The positions of a run are those from the place before it to its end. -/
theorem mem_positions_ofRun {table : RepeatTable} {b p : Nat} :
    p ∈ (table.ofRun (b + 1) run).positions
      ↔ ∃ k, b ≤ k ∧ k ≤ b + run.length ∧ table.order[k]? = some p := by
  rw [ofRun, mem_stretch_iff, Nat.add_sub_cancel]
  refine exists_congr fun k => and_congr_right fun _ => and_congr_left fun _ => ?_
  omega

theorem pairwise_positions_ofRun {table : RepeatTable} (horder : table.order = order) (s : Nat)
    (run : List Nat) : (table.ofRun s run).positions.Pairwise (· < ·) := by
  rw [ofRun, horder]
  exact pairwise_stretch hsorted _ _

/-- All positions of a run share its smallest entry. -/
theorem RunAt.le_sharedAt_of_le {b m i j k l : Nat} (hrun : RunAt text order least b run)
    (hmin : ∀ e ∈ run, m ≤ e) (hbk : b ≤ k) (hk : k ≤ b + run.length) (hbl : b ≤ l)
    (hl : l ≤ b + run.length) (hi : order[k]? = some i) (hj : order[l]? = some j) :
    m ≤ sharedAt text i j := by
  rcases Nat.lt_trichotomy k l with hkl | rfl | hkl
  · exact hrun.le_sharedAt hmin hbk hkl hl hi hj
  · rw [hi] at hj
    rw [← Option.some.inj hj]
    exact hrun.le_sharedAt_self hsorted hmin hbk hk hi
  · rw [sharedAt, common_comm]
    exact hrun.le_sharedAt hmin hbl hkl hk hj hi

/-- An entry of a run belongs to two neighbours. -/
theorem RunAt.exists_sharedAt_eq {b m : Nat} (hrun : RunAt text order least b run) (hm : m ∈ run) :
    ∃ k i j, b ≤ k ∧ k + 1 ≤ b + run.length ∧ order[k]? = some i ∧ order[k + 1]? = some j
      ∧ i ≠ j ∧ sharedAt text i j = m := by
  have hsize := hrun.lt_size
  obtain ⟨t, ht, hmt⟩ := List.getElem_of_mem hm
  obtain ⟨i, hi⟩ := exists_position hsorted (k := b + t) (by omega)
  obtain ⟨j, hj⟩ := exists_position hsorted (k := b + t + 1) (by omega)
  have hentry := hrun.entry (Nat.le_add_right b t) (by omega) hi hj
  rw [Nat.add_sub_cancel_left, List.getElem?_eq_getElem ht, hmt] at hentry
  refine ⟨b + t, i, j, by omega, by omega, hi, hj, ?_, (Option.some.inj hentry).symm⟩
  rintro rfl
  have := place_inj hsorted hi hj
  omega

/-- **The repeat of a run is a region.** -/
theorem RunAt.isRegion {b : Nat} (hrun : RunAt text order least b run) (hleast : 0 < least)
    {table : RepeatTable} (horder : table.order = order) :
    IsRegion text least (table.ofRun (b + 1) run) := by
  obtain ⟨m, hm⟩ : ∃ m, run.min? = some m :=
    Option.isSome_iff_exists.mp (List.isSome_min?_of_ne_nil hrun.ne_nil)
  obtain ⟨hmem, hmin⟩ := List.min?_eq_some_iff.mp hm
  have hlength : (table.ofRun (b + 1) run).length = m := by
    rw [ofRun, hm, Option.getD_some]
  have hmemiff : ∀ {p : Nat}, p ∈ (table.ofRun (b + 1) run).positions
      ↔ ∃ k, b ≤ k ∧ k ≤ b + run.length ∧ order[k]? = some p := by
    intro p
    rw [mem_positions_ofRun, horder]
  have hsize := hrun.lt_size
  refine ⟨?_, pairwise_positions_ofRun hsorted horder _ _, ?_, ?_, ?_, ?_, ?_⟩
  · have hpos := List.length_pos_iff.mpr hrun.ne_nil
    rw [ofRun, List.length_mergeSort, Array.length_toList, Array.size_extract, horder,
      size_of_sorted hsorted]
    omega
  · intro p hp
    obtain ⟨k, -, -, hk⟩ := hmemiff.mp hp
    exact lt_of_sorted hsorted hk
  · rw [hlength]
    exact hrun.le_entry _ hmem
  · intro i hi j hj
    obtain ⟨k, hbk, hk, hi⟩ := hmemiff.mp hi
    obtain ⟨l, hbl, hl, hj⟩ := hmemiff.mp hj
    rw [hlength]
    exact hrun.le_sharedAt_of_le hsorted hmin hbk hk hbl hl hi hj
  · obtain ⟨k, i, j, hbk, hk, hi, hj, hne, hshared⟩ := hrun.exists_sharedAt_eq hsorted hmem
    rw [hlength]
    exact ⟨i, hmemiff.mpr ⟨k, hbk, Nat.le_of_succ_le hk, hi⟩, j,
      hmemiff.mpr ⟨k + 1, Nat.le_succ_of_le hbk, hk, hj⟩, hne, hshared⟩
  · intro i hi j _ hle
    obtain ⟨k, hbk, hk, hi⟩ := hmemiff.mp hi
    have hj : j < text.size := by
      rw [sharedAt, common_comm] at hle
      exact lt_size_of_le_sharedAt hleast hle
    obtain ⟨l, hl⟩ := exists_place hsorted hj
    obtain ⟨hbl, hlb⟩ := hrun.mem_of_le_sharedAt hsorted hbk hk hi hl hle
    exact hmemiff.mpr ⟨l, hbl, hlb, hl⟩

end Table

/-! ## The regions of a text -/

variable {text : Array Int} {least : Nat}

/-- The table of a text, from the order of its suffixes and their common lengths. -/
theorem ofSuffixes_eq (order lengths : Array Nat)
    (hsorted : Suffix.Sorted (fun a b => decide (a < b)) text order)
    (hlengths : commonLengths text order = lengths) :
    ofSuffixes (SuffixArray.ofText text) = ⟨order, lengths⟩ := by
  rw [ofSuffixes, SuffixArray.ofText, Suffix.suffixArray_eq hsorted, hlengths]

theorem mem_regions_iff {table : RepeatTable} {region : Repeat} (hleast : 0 < least) :
    region ∈ table.regions least
      ↔ ∃ s run, (s, run) ∈ runs least 1 (table.lengths.toList.drop 1)
        ∧ table.ofRun s run = region := by
  rw [regions, if_neg (by omega), List.mem_map]
  constructor
  · rintro ⟨⟨s, run⟩, hmem, heq⟩
    exact ⟨s, run, hmem, heq⟩
  · rintro ⟨s, run, hmem, heq⟩
    exact ⟨(s, run), hmem, heq⟩

/-- **All regions are regions.** -/
theorem isRegion_of_mem {region : Repeat} (hleast : 0 < least)
    (h : region ∈ (ofSuffixes (SuffixArray.ofText text)).regions least) :
    IsRegion text least region := by
  obtain ⟨s, run, hmem, rfl⟩ := (mem_regions_iff hleast).mp h
  have hsorted := Suffix.sorted_suffixArray text
  obtain ⟨b, rfl, hrun⟩ := exists_runAt hsorted hmem
  exact hrun.isRegion hsorted hleast rfl

/-- **Every repeated word has its region** — two positions that share `least` symbols are in one
region. -/
theorem exists_mem_regions {i j : Nat} (hleast : 0 < least) (hij : i ≠ j)
    (hshared : least ≤ sharedAt text i j) :
    ∃ region ∈ (ofSuffixes (SuffixArray.ofText text)).regions least,
      i ∈ region.positions ∧ j ∈ region.positions := by
  have hsorted := Suffix.sorted_suffixArray text
  have hcomm : sharedAt text i j = sharedAt text j i := common_comm _ _
  obtain ⟨k, hk⟩ := exists_place hsorted (lt_size_of_le_sharedAt hleast hshared)
  obtain ⟨l, hl⟩ := exists_place hsorted (lt_size_of_le_sharedAt hleast (hcomm ▸ hshared))
  -- the earlier one of the two shares enough with its neighbour, so it is in a run
  have hregion : ∀ {x y a b : Nat}, (Suffix.suffixArray text)[a]? = some x →
      (Suffix.suffixArray text)[b]? = some y → a < b → least ≤ sharedAt text x y →
      ∃ region ∈ (ofSuffixes (SuffixArray.ofText text)).regions least, x ∈ region.positions := by
    intro x y a b hx hy hab hle
    obtain ⟨z, hz⟩ := exists_position hsorted (k := a + 1) (by
      have := (Array.getElem?_eq_some_iff.mp hy).1
      rw [size_of_sorted hsorted] at this
      omega)
    have hnext := sharedAt_le_of_places hsorted hx hx hz hy (Nat.le_refl a) hab
    obtain ⟨s, run, hmem, hs, hrun⟩ := exists_mem_runs 1
      (getElem?_lengths hsorted hx hz) (hle.trans hnext)
    refine ⟨_, (mem_regions_iff hleast).mpr ⟨s, run, hmem, rfl⟩, ?_⟩
    obtain ⟨c, rfl, -⟩ := exists_runAt hsorted hmem
    exact mem_positions_ofRun.mpr ⟨a, by omega, by omega, hx⟩
  rcases Nat.lt_trichotomy k l with hkl | rfl | hkl
  · obtain ⟨region, hmem, hi⟩ := hregion hk hl hkl hshared
    exact ⟨region, hmem, hi, (isRegion_of_mem hleast hmem).closed i hi j hij hshared⟩
  · rw [hk] at hl
    exact absurd (Option.some.inj hl) hij
  · obtain ⟨region, hmem, hj⟩ := hregion hl hk hkl (hcomm ▸ hshared)
    exact ⟨region, hmem, (isRegion_of_mem hleast hmem).closed j hj i hij.symm (hcomm ▸ hshared), hj⟩

end RepeatTable

end CodeClones
