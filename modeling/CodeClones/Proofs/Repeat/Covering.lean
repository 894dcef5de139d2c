import CodeClones.Proofs.Repeat.Word

/-!
# Proofs/Repeat/Covering — what is selected covers every repeat, and little of it twice

A repeat is selected if it adds something to the repeats selected before it (`addsTo_of_selected`),
and what is not selected is mostly covered by longer ones (`mostOf_of_not_selected`).  So no
occurrence of a repeat is left mostly uncovered (`selection_covers`).  This is about the whole
length of the repeat; a word that is only a part of it can lie in the rest.  Each selected repeat
covers at least half of its length anew (`AddsTo.two_mul_coveredCount`), and there is only so much
text to cover (`sum_length_le`).
-/

namespace CodeClones

namespace Repeat

/-! ## Adding to what is covered -/

/-- **A repeat adds to others** if they cover at most half of one of its occurrences. -/
def AddsTo (found : Repeat) (kept : List Repeat) : Prop :=
  ∃ i ∈ found.positions, ¬ MostOf found.length fun t => ∃ r ∈ kept, r.Covers (i + t)

/-- How many positions of a text some repeats cover. -/
def coveredCount (size : Nat) (kept : List Repeat) : Nat :=
  (List.range size).countP fun q => decide (∃ r ∈ kept, r.Covers q)

theorem coveredCount_le (size : Nat) (kept : List Repeat) : coveredCount size kept ≤ size := by
  have hle := List.countP_le_length (p := fun q => decide (∃ r ∈ kept, r.Covers q))
    (l := List.range size)
  rwa [List.length_range] at hle

/-- A repeat covers its occurrences. -/
theorem covers_add {found : Repeat} {i t : Nat} (hi : i ∈ found.positions)
    (ht : t < found.length) : found.Covers (i + t) :=
  ⟨i, hi, Nat.le_add_right i t, Nat.add_lt_add_left ht i⟩

/-- One repeat more covers no less. -/
theorem covered_append {kept : List Repeat} {q : Nat} (found : Repeat)
    (h : ∃ r ∈ kept, r.Covers q) : ∃ r ∈ kept ++ [found], r.Covers q := by
  obtain ⟨r, hr, hcovers⟩ := h
  exact ⟨r, List.mem_append_left _ hr, hcovers⟩

/-- Most offsets of all. -/
theorem mostOf_of_forall {length : Nat} {has : Nat → Prop} (hpos : 0 < length)
    (hall : ∀ t < length, has t) : MostOf length has :=
  ⟨List.range length, List.nodup_range, by rw [List.length_range]; omega,
    fun t ht => ⟨List.mem_range.mp ht, hall t (List.mem_range.mp ht)⟩⟩

/-- Counting the positions of a text before, in and behind an occurrence. -/
theorem countP_range_split (has : Nat → Bool) {i length size : Nat} (hsize : i + length ≤ size) :
    (List.range size).countP has = (List.range i).countP has
      + (List.range length).countP (fun t => has (i + t))
      + (List.range (size - (i + length))).countP fun t => has (i + length + t) := by
  obtain ⟨rest, rfl⟩ := Nat.exists_eq_add_of_le hsize
  rw [Nat.add_sub_cancel_left, List.range_add, List.range_add, List.countP_append,
    List.countP_append, List.countP_map, List.countP_map]
  rfl

/-- **What a repeat adds** — half of its length at least is covered that was not covered before. -/
theorem AddsTo.two_mul_coveredCount {size : Nat} {found : Repeat} {kept : List Repeat}
    (h : found.AddsTo kept) (hsize : ∀ i ∈ found.positions, i + found.length ≤ size) :
    2 * coveredCount size kept + found.length ≤ 2 * coveredCount size (kept ++ [found]) := by
  obtain ⟨i, hi, hfresh⟩ := h
  have hmono : ∀ q, decide (∃ r ∈ kept, r.Covers q) = true →
      decide (∃ r ∈ kept ++ [found], r.Covers q) = true := fun q hq =>
    decide_eq_true (covered_append found (of_decide_eq_true hq))
  -- the occurrence itself is covered as a whole from now on
  have hwhole : (List.range found.length).countP
      (fun t => decide (∃ r ∈ kept ++ [found], r.Covers (i + t))) = found.length := by
    rw [List.countP_eq_length.mpr, List.length_range]
    exact fun t ht => decide_eq_true ⟨found, List.mem_append_right _ (List.mem_singleton_self _),
      covers_add hi (List.mem_range.mp ht)⟩
  have hhalf := mt mostOf_iff_countP.mpr hfresh
  have hbefore := List.countP_mono_left (l := List.range i) fun q _ => hmono q
  have hbehind := List.countP_mono_left (l := List.range (size - (i + found.length)))
    fun t _ => hmono (i + found.length + t)
  rw [coveredCount, coveredCount, countP_range_split _ (hsize i hi),
    countP_range_split (fun q => decide (∃ r ∈ kept ++ [found], r.Covers q)) (hsize i hi), hwhole]
  omega

/-- **Repeats that all add something are short in total.** -/
theorem sum_length_le {size : Nat} {kept : List Repeat}
    (hsize : ∀ found ∈ kept, ∀ i ∈ found.positions, i + found.length ≤ size)
    (hadds : ∀ before found after, kept = before ++ found :: after → found.AddsTo before) :
    (kept.map Repeat.length).sum ≤ 2 * coveredCount size kept := by
  induction kept using List.reverseRecOn with
  | nil => exact Nat.zero_le _
  | append_singleton kept found ih =>
    have hrest := ih (fun r hr => hsize r (List.mem_append_left _ hr))
      fun before r after heq => hadds before r (after ++ [found]) (by rw [heq]; simp)
    have hadd := (hadds kept found [] rfl).two_mul_coveredCount
      (hsize found (List.mem_append_right _ (List.mem_singleton_self found)))
    rw [List.map_append, List.sum_append, List.map_singleton, List.sum_singleton]
    omega

end Repeat

namespace RepeatTable

open Repeat

variable {text : Array Int} {least : Nat}

/-! ## What is selected -/

theorem selected_sublist (table : RepeatTable) (least : Int) :
    (table.selected least).Sublist (table.candidates least) :=
  select_sublist _ _

/-- Regions fill ranges of the sorted order one behind the other. -/
theorem pairwise_last_le (hleast : 0 < least) :
    ((ofSuffixes (SuffixArray.ofText text)).regions least).Pairwise fun a b =>
      a.last ≤ b.first := by
  rw [regions, if_neg (by omega), List.pairwise_map]
  refine (pairwise_runs least 1 _).imp fun {a b} hlt => ?_
  change a.1 + a.2.length ≤ b.1 - 1
  omega

/-- **The order of the selection** — longer ones first, then by their ranges. -/
theorem pairwise_selected (hleast : 0 < least) :
    ((ofSuffixes (SuffixArray.ofText text)).selected least).Pairwise fun a b =>
      b.length < a.length ∨ a.length = b.length ∧ a.last ≤ b.first := by
  have hranges : ((ofSuffixes (SuffixArray.ofText text)).regions least).Pairwise fun a b =>
      a.length = b.length → a.last ≤ b.first := by
    refine (pairwise_last_le hleast).imp ?_
    exact fun hle _ => hle
  exact (pairwise_mergeSort_length hranges).sublist (selected_sublist _ _)

theorem nodup_selected (hleast : 0 < least) :
    ((ofSuffixes (SuffixArray.ofText text)).selected least).Nodup := by
  refine ((pairwise_before hleast).sublist (selected_sublist _ _)).imp fun {a b} hbefore => ?_
  rintro rfl
  exact hbefore.asymm hbefore

/-- Nothing is selected for a length that is not positive. -/
theorem selected_of_nonpos {table : RepeatTable} {least : Int} (h : least ≤ 0) :
    table.selected least = [] := by
  rw [selected, regions, if_pos h, List.mergeSort_nil, select]

/-- **What is selected adds something** to what is selected before it. -/
theorem addsTo_of_selected (hleast : 0 < least) {before after : List Repeat} {found : Repeat}
    (h : (ofSuffixes (SuffixArray.ofText text)).selected least = before ++ found :: after) :
    found.AddsTo before := by
  have horder : (before ++ found :: after).Pairwise (Before text) :=
    h ▸ (pairwise_before hleast).sublist (selected_sublist _ _)
  have hmem : found ∈ (ofSuffixes (SuffixArray.ofText text)).selected least := by
    rw [h]
    exact List.mem_append_right _ List.mem_cons_self
  obtain ⟨-, i, hi, hfresh⟩ := (mem_selected_iff hleast).mp hmem
  refine ⟨i, hi, fun hmost => hfresh (hmost.mono fun t _ => ?_)⟩
  rintro ⟨r, hr, hcovers⟩
  exact ⟨r, h ▸ List.mem_append_left _ hr,
    (List.pairwise_append.mp horder).2.2 r hr found List.mem_cons_self, hcovers⟩

/-- **What is not selected is mostly covered** by selected repeats at least as long. -/
theorem mostOf_of_not_selected (hleast : 0 < least) {found : Repeat}
    (hmem : found ∈ (ofSuffixes (SuffixArray.ofText text)).regions least)
    (hnot : found ∉ (ofSuffixes (SuffixArray.ofText text)).selected least) {i : Nat}
    (hi : i ∈ found.positions) :
    MostOf found.length fun t => ∃ r ∈ (ofSuffixes (SuffixArray.ofText text)).selected least,
      found.length ≤ r.length ∧ r.Covers (i + t) := by
  by_contra hfresh
  refine hnot ((mem_selected_iff hleast).mpr ⟨hmem, i, hi, fun hmost => hfresh ?_⟩)
  refine hmost.mono fun t _ ⟨r, hr, hbefore, hcovers⟩ => ⟨r, hr, ?_, hcovers⟩
  rcases hbefore with hlt | ⟨heq, -⟩
  · exact hlt.le
  · exact heq.ge

/-- **No occurrence of a repeat is left mostly uncovered.** -/
theorem mostOf_covered (hleast : 0 < least) {found : Repeat}
    (hmem : found ∈ (ofSuffixes (SuffixArray.ofText text)).regions least) {i : Nat}
    (hi : i ∈ found.positions) :
    MostOf found.length fun t =>
      ∃ r ∈ (ofSuffixes (SuffixArray.ofText text)).selected least, r.Covers (i + t) := by
  by_cases hselected : found ∈ (ofSuffixes (SuffixArray.ofText text)).selected least
  · have hpos := hleast.trans_le (isRegion_of_mem hleast hmem).least_le
    exact mostOf_of_forall hpos fun t ht => ⟨found, hselected, covers_add hi ht⟩
  · exact (mostOf_of_not_selected hleast hmem hselected hi).mono
      fun t _ ⟨r, hr, _, hcovers⟩ => ⟨r, hr, hcovers⟩

/-- **The selection covers all repeats** — for every text and every least length that is positive,
the selected repeats are some of all repeats, each once, longer ones first and those of one length
in the order of the suffixes.  Each has an occurrence at most half of which is covered by those
before it; of a repeat that is not selected every occurrence is covered to more than half by
selected ones at least as long.  So wherever a word of the least length that stands twice stands,
the symbols that all its occurrences share from there on are mostly covered. -/
theorem selection_covers (text : Array Int) {m : Nat} (hm : 0 < m) :
    let table := ofSuffixes (SuffixArray.ofText text)
    table.selected m ⊆ table.maximal m ∧ (table.selected m).Nodup
      ∧ (table.selected m).Pairwise (fun a b =>
        b.length < a.length ∨ a.length = b.length ∧ a.last ≤ b.first)
      ∧ (∀ before found after, table.selected m = before ++ found :: after →
        ∃ p ∈ found.positions, ¬ MostOf found.length fun t => ∃ r ∈ before, r.Covers (p + t))
      ∧ (∀ found ∈ table.maximal m, found ∉ table.selected m → ∀ p ∈ found.positions,
        MostOf found.length fun t =>
          ∃ r ∈ table.selected m, found.length ≤ r.length ∧ r.Covers (p + t))
      ∧ ∀ word : List Int, word.length = m → 2 ≤ (positionsOf text word).length →
        ∃ l, IsGreatest {l | ∀ i ∈ positionsOf text word, ∀ j ∈ positionsOf text word,
            AgreeFor text i j l} l
          ∧ m ≤ l ∧ ∀ p ∈ positionsOf text word,
            MostOf l fun t => ∃ r ∈ table.selected m, r.Covers (p + t) := by
  intro table
  refine ⟨fun found h => mem_maximal_iff.mpr (mem_regions_of_mem_selected h), nodup_selected hm,
    pairwise_selected hm, fun before found after h => addsTo_of_selected hm h,
    fun found h hnot p hp => mostOf_of_not_selected hm (mem_maximal_iff.mp h) hnot hp,
    fun word hlength htwice => ?_⟩
  obtain ⟨region, hmem, hpositions⟩ := exists_region_of_word hm hlength htwice
  have hgreatest := (isRegion_of_mem hm hmem).isGreatest
  rw [hpositions] at hgreatest
  exact ⟨region.length, hgreatest, (isRegion_of_mem hm hmem).least_le,
    fun p hp => mostOf_covered hm hmem (hpositions ▸ hp)⟩

/-- A block that stands twice; its last two symbols stand once more behind it. -/
def block : Array Int := #[1, 2, 3, 4, 1, 2, 3, 4, 3, 4]

theorem ofSuffixes_block : ofSuffixes (SuffixArray.ofText block)
    = ⟨#[0, 4, 1, 5, 8, 2, 6, 9, 3, 7], #[0, 4, 0, 3, 0, 2, 2, 0, 1, 1]⟩ :=
  ofSuffixes_eq _ _ ⟨by decide +kernel, by decide +kernel⟩ (by decide +kernel)

/-- The block itself is selected, and so are its last two symbols for their third occurrence; what
lies within the block is left to it. -/
theorem selection_covers_of_block :
    0 < 2
      ∧ (ofSuffixes (SuffixArray.ofText block)).selected (2 : Nat)
        = [⟨[0, 4], 4, 0, 2⟩] ++ ⟨[2, 6, 8], 2, 4, 7⟩ :: []
      ∧ (∃ p ∈ [2, 6, 8], ¬ MostOf 2 fun t =>
        ∃ r ∈ [(⟨[0, 4], 4, 0, 2⟩ : Repeat)], r.Covers (p + t))
      ∧ (⟨[1, 5], 3, 2, 4⟩ : Repeat) ∈ (ofSuffixes (SuffixArray.ofText block)).maximal (2 : Nat)
      ∧ (∀ p ∈ [1, 5], MostOf 3 fun t =>
        ∃ r ∈ (ofSuffixes (SuffixArray.ofText block)).selected (2 : Nat),
          3 ≤ r.length ∧ r.Covers (p + t))
      ∧ ([3, 4] : List Int).length = 2 ∧ positionsOf block [3, 4] = [2, 6, 8]
      ∧ ∃ l, 2 ≤ l ∧ ∀ p ∈ [2, 6, 8], MostOf l fun t =>
        ∃ r ∈ (ofSuffixes (SuffixArray.ofText block)).selected (2 : Nat), r.Covers (p + t) := by
  have hselected : (ofSuffixes (SuffixArray.ofText block)).selected (2 : Nat)
      = [⟨[0, 4], 4, 0, 2⟩] ++ ⟨[2, 6, 8], 2, 4, 7⟩ :: [] := by
    rw [ofSuffixes_block]
    cbv
  have hmaximal : (ofSuffixes (SuffixArray.ofText block)).maximal (2 : Nat)
      = [⟨[0, 4], 4, 0, 2⟩, ⟨[1, 5], 3, 2, 4⟩, ⟨[2, 6, 8], 2, 4, 7⟩] := by
    rw [ofSuffixes_block]
    cbv
  have hpositions : positionsOf block [3, 4] = [2, 6, 8] := by decide +kernel
  have hinner : (⟨[1, 5], 3, 2, 4⟩ : Repeat)
      ∈ (ofSuffixes (SuffixArray.ofText block)).maximal (2 : Nat) := by
    rw [hmaximal]
    decide
  obtain ⟨-, -, -, hadds, hdropped, hwords⟩ := selection_covers block (show 0 < 2 by decide)
  obtain ⟨l, -, hleast, hmost⟩ := hwords [3, 4] rfl (by rw [hpositions]; decide)
  rw [hpositions] at hmost
  exact ⟨by decide, hselected, hadds _ _ _ hselected, hinner,
    hdropped _ hinner (by rw [hselected]; decide), rfl, hpositions, l, hleast,
    hmost⟩

/-- A block of four symbols four times in a row, without its last symbol. -/
def periodic : Array Int := #[2, 2, 2, 1, 2, 2, 2, 1, 2, 2, 2, 1, 2, 2, 2]

theorem ofSuffixes_periodic : ofSuffixes (SuffixArray.ofText periodic)
    = ⟨#[11, 7, 3, 14, 10, 6, 2, 13, 9, 5, 1, 12, 8, 4, 0],
      #[0, 4, 8, 0, 1, 5, 9, 1, 2, 6, 10, 2, 3, 7, 11]⟩ :=
  ofSuffixes_eq _ _ ⟨by decide +kernel, by decide +kernel⟩ (by decide +kernel)

/-- **A repeated word can be left mostly uncovered.**  In four blocks `2 2 2 1`, the last one cut
short, the repeat of eight symbols at the positions 3 and 7 is the only one selected.  The word
`2 2 2 1 2` stands at 0, 4 and 8, where seven symbols are shared.  At 0 the last four of these are
covered, but the first three symbols of the word are not. -/
theorem not_forall_word_mostly_covered :
    ¬ ∀ (text : Array Int) (m : Nat), 0 < m → ∀ word : List Int, word.length = m →
      2 ≤ (positionsOf text word).length → ∀ p ∈ positionsOf text word,
        ¬ MostOf m fun t => ¬ ∃ r ∈ (ofSuffixes (SuffixArray.ofText text)).selected m,
          r.Covers (p + t) := by
  intro hcovered
  have hselected : (ofSuffixes (SuffixArray.ofText periodic)).selected (5 : Nat)
      = [⟨[3, 7], 8, 1, 3⟩] := by
    rw [ofSuffixes_periodic]
    cbv
  have hpositions : positionsOf periodic [2, 2, 2, 1, 2] = [0, 4, 8] := by decide +kernel
  refine hcovered periodic 5 (by decide) [2, 2, 2, 1, 2] rfl (by rw [hpositions]; decide) 0
    (by rw [hpositions]; decide) ⟨[0, 1, 2], by decide, by decide, ?_⟩
  rw [hselected]
  decide

/-- **The selection is small** — the lengths of the selected repeats, each counted once, add up to
at most twice the length of the text, so there are not many of them. -/
theorem selection_bounded (text : Array Int) (m : Nat) :
    (((ofSuffixes (SuffixArray.ofText text)).selected m).map Repeat.length).sum ≤ 2 * text.size
      ∧ ((ofSuffixes (SuffixArray.ofText text)).selected m).length ≤ 2 * text.size / m := by
  rcases Nat.eq_zero_or_pos m with rfl | hm
  · rw [selected_of_nonpos (Int.le_refl ((0 : Nat) : Int))]
    exact ⟨Nat.zero_le _, Nat.zero_le _⟩
  · have hregion : ∀ found ∈ (ofSuffixes (SuffixArray.ofText text)).selected m,
        IsRegion text m found := fun found h =>
      isRegion_of_mem hm (mem_regions_of_mem_selected h)
    have hsum := sum_length_le (fun found h i hi => (hregion found h).add_length_le hi)
      fun before found after h => addsTo_of_selected hm h
    have hcovered := coveredCount_le text.size ((ofSuffixes (SuffixArray.ofText text)).selected m)
    have hmany := List.card_nsmul_le_sum
      (((ofSuffixes (SuffixArray.ofText text)).selected m).map Repeat.length) m fun l hl => by
        obtain ⟨found, h, rfl⟩ := List.mem_map.mp hl
        exact (hregion found h).least_le
    rw [List.length_map, smul_eq_mul] at hmany
    refine ⟨by omega, (Nat.le_div_iff_mul_le hm).mpr (by omega)⟩

end RepeatTable

end CodeClones
