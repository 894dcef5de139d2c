import CodeClones.Clone.Location
import CodeClones.Proofs.Order.Table
import Mathlib

/-!
# Proofs/Clone/Location — the last location kept is the only one that matters

The scan compares a location with the last one kept in its file.  That one starts and ends last of
all kept there (`Latest`), so what it does not crowd no earlier one crowds (`not_crowds_trans`), and
the scan drops what a comparison with everything kept would drop (`thinFrom_eq_thinAll`).  That
plain scan leaves nothing crowded (`thinAll_free`) and drops nothing else
(`mem_thinAll_or_crowded`), in whatever order locations with one start come (`thin_any_order`).
-/

namespace CodeClones.Location

open CodeClones.Order (pairwise_snd_zipIdx)

/-! ## Crowding -/

section Crowds

variable {a b c : Location}

theorem shared_eq (a b : Location) :
    a.shared b = max 0 (min a.stop b.stop - max a.start b.start + 1) := by
  rw [shared]
  split_ifs <;> omega

theorem shared_comm (a b : Location) : a.shared b = b.shared a := by
  rw [shared_eq, shared_eq, min_comm, max_comm a.start]

theorem crowds_eq_false_iff : a.crowds b = false ↔ a.shared b * 2 ≤ b.extent := by
  rw [crowds, decide_eq_false_iff_not, not_lt]

theorem crowds_iff : a.crowds b = true ↔ b.extent < a.shared b * 2 := by
  rw [crowds, decide_eq_true_iff]

/-- What is not crowded ends later. -/
theorem stop_le_of_not_crowds (hab : a.start ≤ b.start) (hb : b.start ≤ b.stop)
    (h : a.crowds b = false) : a.stop ≤ b.stop := by
  rw [crowds_eq_false_iff, shared_eq, extent] at h
  omega

/-- **What the last location does not crowd, no earlier one crowds.** -/
theorem not_crowds_trans (hab : a.start ≤ b.start) (hbc : b.start ≤ c.start)
    (hstop : a.stop ≤ b.stop) (h : b.crowds c = false) : a.crowds c = false := by
  rw [crowds_eq_false_iff, shared_eq] at h ⊢
  omega

end Crowds

/-! ## The order of the scan -/

theorem le_iff {a b : Location} :
    le a b = true ↔ a.file < b.file ∨ a.file = b.file ∧ a.start ≤ b.start := by
  rw [le]
  split
  · next heq => simp [heq]
  · next hne => simp [hne]

theorem le_total (a b : Location) : le a b || le b a := by
  rw [Bool.or_eq_true, le_iff, le_iff]
  omega

theorem le_trans (a b c : Location) (hab : le a b) (hbc : le b c) : le a c := by
  rw [le_iff] at hab hbc ⊢
  omega

/-! ## The scan -/

/-- **The last location kept in each file** — among those kept so far it starts and ends last. -/
structure Latest (kept : Std.HashMap Nat Location) (done : List Location) : Prop where
  sound : ∀ {file : Nat} {a : Location}, kept[file]? = some a → a ∈ done ∧ a.file = file
  last : ∀ {b : Location}, b ∈ done →
    ∃ a, kept[b.file]? = some a ∧ b.start ≤ a.start ∧ b.stop ≤ a.stop

theorem latest_empty : Latest ∅ [] where
  sound h := absurd h (by simp)
  last h := absurd h List.not_mem_nil

/-- Keeping a location that starts last and is not crowded. -/
theorem Latest.insert {kept : Std.HashMap Nat Location} {done : List Location}
    (h : Latest kept done) {x : Location} (hx : x.start ≤ x.stop)
    (hstart : ∀ a ∈ done, a.file = x.file → a.start ≤ x.start)
    (hfree : ∀ a, kept[x.file]? = some a → a.crowds x = false) :
    Latest (kept.insert x.file x) (done ++ [x]) where
  sound {file a} ha := by
    rw [Std.HashMap.getElem?_insert] at ha
    split at ha
    · next heq =>
      obtain rfl := Option.some.inj ha
      exact ⟨List.mem_append_right _ (List.mem_singleton_self _), eq_of_beq heq⟩
    · exact ⟨List.mem_append_left _ (h.sound ha).1, (h.sound ha).2⟩
  last {b} hb := by
    rw [Std.HashMap.getElem?_insert]
    rcases List.mem_append.mp hb with hb | hb
    · obtain ⟨a, ha, hstart', hstop'⟩ := h.last hb
      split
      · next heq =>
        rw [← eq_of_beq heq] at ha
        have hax := hstart a (h.sound ha).1 (h.sound ha).2
        have := stop_le_of_not_crowds hax hx (hfree a ha)
        exact ⟨x, rfl, by omega, by omega⟩
      · exact ⟨a, ha, hstart', hstop'⟩
    · obtain rfl := List.mem_singleton.mp hb
      exact ⟨b, if_pos (beq_self_eq_true _), Int.le_refl _, Int.le_refl _⟩

/-- **If the last location kept does not crowd the next one, no earlier one does.** -/
theorem Latest.crowds_eq_false {kept : Std.HashMap Nat Location} {done : List Location}
    {a x : Location} (hlatest : Latest kept done)
    (hdone : ∀ a ∈ done, a.file = x.file → a.start ≤ x.start)
    (hfree : ∀ a, kept[x.file]? = some a → a.crowds x = false) (ha : a ∈ done)
    (hfile : a.file = x.file) : a.crowds x = false := by
  obtain ⟨b, hb, hstart, hstop⟩ := hlatest.last ha
  rw [hfile] at hb
  obtain ⟨hmem, hbfile⟩ := hlatest.sound hb
  exact not_crowds_trans hstart (hdone b hmem hbfile) hstop (hfree b hb)

/-- `crowds` for locations of any files. -/
def crowdsInFile (a b : Location) : Bool :=
  a.file == b.file && a.crowds b

theorem crowdsInFile_iff {a b : Location} :
    a.crowdsInFile b = true ↔ a.file = b.file ∧ a.crowds b = true := by
  rw [crowdsInFile, Bool.and_eq_true, beq_iff_eq]

theorem crowdsInFile_eq_false_iff {a b : Location} :
    a.crowdsInFile b = false ↔ (a.file = b.file → a.crowds b = false) := by
  rw [crowdsInFile, Bool.and_eq_false_imp, beq_iff_eq]

/-- **The last location kept speaks for all of them.** -/
theorem Latest.any_crowds {kept : Std.HashMap Nat Location} {done : List Location} {x : Location}
    (hlatest : Latest kept done) (hdone : ∀ a ∈ done, a.file = x.file → a.start ≤ x.start) :
    (kept[x.file]?).any (fun last => last.crowds x) = done.any fun a => a.crowdsInFile x := by
  rw [Bool.eq_iff_iff, List.any_eq_true, Option.any_eq_true]
  constructor
  · rintro ⟨a, ha, hcrowds⟩
    obtain ⟨hmem, hfile⟩ := hlatest.sound ha
    exact ⟨a, hmem, crowdsInFile_iff.mpr ⟨hfile, hcrowds⟩⟩
  · rintro ⟨a, ha, hcrowds⟩
    obtain ⟨hfile, hcrowds⟩ := crowdsInFile_iff.mp hcrowds
    by_contra hnone
    have hfree : ∀ b, kept[x.file]? = some b → b.crowds x = false := fun b hb => by
      rw [← Bool.not_eq_true]
      exact fun hbcrowds => hnone ⟨b, hb, hbcrowds⟩
    rw [hlatest.crowds_eq_false hdone hfree ha hfile] at hcrowds
    exact Bool.false_ne_true hcrowds

theorem thinFrom_sublist (kept : Std.HashMap Nat Location) (rest : List Location) :
    (thinFrom kept rest).Sublist rest := by
  induction rest generalizing kept with
  | nil => exact List.Sublist.refl _
  | cons x rest ih =>
    rw [thinFrom]
    split
    · exact (ih kept).cons x
    · exact (ih _).cons_cons x

/-! ## The scan that compares with everything kept -/

section ThinAll

variable {α : Type} {crowds : α → α → Bool}

/-- **The plain scan** — an entry is dropped if anything kept before it crowds it. -/
def thinAll (crowds : α → α → Bool) (done : List α) : List α → List α
  | [] => []
  | x :: rest =>
    if done.any fun a => crowds a x then thinAll crowds done rest
    else x :: thinAll crowds (done ++ [x]) rest

theorem thinAll_sublist (crowds : α → α → Bool) (done rest : List α) :
    (thinAll crowds done rest).Sublist rest := by
  induction rest generalizing done with
  | nil => exact List.Sublist.refl _
  | cons x rest ih =>
    rw [thinAll]
    split
    · exact (ih done).cons x
    · exact (ih _).cons_cons x

/-- Scanning entries that carry more than what crowds. -/
theorem map_thinAll {β : Type} (f : β → α) (done rest : List β) :
    (thinAll (fun a b => crowds (f a) (f b)) done rest).map f
      = thinAll crowds (done.map f) (rest.map f) := by
  induction rest generalizing done with
  | nil => rfl
  | cons x rest ih =>
    rw [List.map_cons, thinAll, thinAll, List.any_map]
    by_cases hcrowded : (done.any fun a => crowds (f a) (f x)) = true
    · rw [if_pos hcrowded, if_pos (by exact hcrowded), ih]
    · rw [if_neg hcrowded, if_neg (by exact hcrowded), List.map_cons, ih, List.map_append]
      rfl

/-- **Nothing kept is crowded** by what was kept before it. -/
theorem thinAll_free (done rest : List α) :
    (∀ a ∈ done, ∀ x ∈ thinAll crowds done rest, crowds a x = false)
      ∧ (thinAll crowds done rest).Pairwise fun a x => crowds a x = false := by
  induction rest generalizing done with
  | nil => exact ⟨fun _ _ _ h => absurd h List.not_mem_nil, List.Pairwise.nil⟩
  | cons x rest ih =>
    rw [thinAll]
    split
    · exact ih done
    · next hfree =>
      obtain ⟨hbefore, hpairs⟩ := ih (done ++ [x])
      refine ⟨fun a ha y hy => ?_, List.pairwise_cons.mpr ⟨?_, hpairs⟩⟩
      · rcases List.mem_cons.mp hy with rfl | hy
        · rw [← Bool.not_eq_true]
          exact fun hcrowds => hfree (List.any_eq_true.mpr ⟨a, ha, hcrowds⟩)
        · exact hbefore a (List.mem_append_left _ ha) y hy
      · exact hbefore x (List.mem_append_right _ (List.mem_singleton_self x))

/-- **Everything dropped is crowded** by something kept that comes before it. -/
theorem mem_thinAll_or_crowded {before : α → α → Prop} {done rest : List α}
    (hdone : ∀ a ∈ done, ∀ x ∈ rest, before a x) (hrest : rest.Pairwise before) :
    ∀ x ∈ rest, x ∈ thinAll crowds done rest
      ∨ ∃ a ∈ done ++ thinAll crowds done rest, before a x ∧ crowds a x = true := by
  induction rest generalizing done with
  | nil => exact fun _ h => absurd h List.not_mem_nil
  | cons x rest ih =>
    obtain ⟨hx, hrest⟩ := List.pairwise_cons.mp hrest
    have hdone' := fun a ha y hy => hdone a ha y (List.mem_cons_of_mem x hy)
    intro y hy
    rw [thinAll]
    split
    · next hcrowded =>
      rcases List.mem_cons.mp hy with rfl | hy
      · obtain ⟨a, ha, hcrowds⟩ := List.any_eq_true.mp hcrowded
        exact Or.inr ⟨a, List.mem_append_left _ ha, hdone a ha y List.mem_cons_self, hcrowds⟩
      · exact ih hdone' hrest y hy
    · rcases List.mem_cons.mp hy with rfl | hy
      · exact Or.inl List.mem_cons_self
      · have hdonex : ∀ a ∈ done ++ [x], ∀ z ∈ rest, before a z := fun a ha z hz => by
          rcases List.mem_append.mp ha with ha | ha
          · exact hdone' a ha z hz
          · exact List.mem_singleton.mp ha ▸ hx z hz
        have hrest' := ih hdonex hrest y hy
        rw [List.append_assoc] at hrest'
        exact hrest'.imp_left (List.mem_cons_of_mem x)

end ThinAll

/-- **Comparing with the last location kept is enough** — along the order of the scan it drops what
a comparison with everything kept would drop. -/
theorem thinFrom_eq_thinAll {kept : Std.HashMap Nat Location} {done rest : List Location}
    (hlatest : Latest kept done) (hspan : ∀ x ∈ rest, x.start ≤ x.stop)
    (hsorted : rest.Pairwise fun a b => le a b = true)
    (hdone : ∀ a ∈ done, ∀ x ∈ rest, a.file = x.file → a.start ≤ x.start) :
    thinFrom kept rest = thinAll crowdsInFile done rest := by
  induction rest generalizing kept done with
  | nil => rw [thinFrom, thinAll]
  | cons x rest ih =>
    obtain ⟨hx, hsorted⟩ := List.pairwise_cons.mp hsorted
    have hspan' := fun y hy => hspan y (List.mem_cons_of_mem x hy)
    have hdone' := fun a ha y hy => hdone a ha y (List.mem_cons_of_mem x hy)
    have hdonex := fun a ha => hdone a ha x List.mem_cons_self
    have hany := hlatest.any_crowds hdonex
    rw [thinFrom, thinAll, hany]
    split
    · exact ih hlatest hspan' hsorted hdone'
    · next hfree =>
      have hfree' : ∀ a, kept[x.file]? = some a → a.crowds x = false := fun a ha => by
        rw [← Bool.not_eq_true]
        exact fun hcrowds => hfree (hany ▸ (Option.any_eq_true _ _).mpr ⟨a, ha, hcrowds⟩)
      rw [ih (hlatest.insert (hspan x List.mem_cons_self) hdonex hfree') hspan' hsorted]
      intro a ha y hy hfile
      rcases List.mem_append.mp ha with ha | ha
      · exact hdone' a ha y hy hfile
      · obtain rfl := List.mem_singleton.mp ha
        have := le_iff.mp (hx y hy)
        omega

/-- The whole scan of a list in order. -/
theorem thinFrom_empty_eq {sorted : List Location} (hspan : ∀ x ∈ sorted, x.start ≤ x.stop)
    (hsorted : sorted.Pairwise fun a b => le a b = true) :
    thinFrom ∅ sorted = thinAll crowdsInFile [] sorted :=
  thinFrom_eq_thinAll latest_empty hspan hsorted fun _ h => absurd h List.not_mem_nil

theorem pairwise_mergeSort_le (locations : List Location) :
    (locations.mergeSort le).Pairwise fun a b => le a b = true :=
  List.pairwise_mergeSort le_trans le_total locations

/-- **Thinning** — what it keeps is in order and nothing kept crowds a later one; whatever it drops
is crowded by something kept that starts no later. -/
theorem thin_spec (locations : List Location) (hspan : ∀ x ∈ locations, x.start ≤ x.stop) :
    (thin locations).Sublist (locations.mergeSort le)
      ∧ (thin locations).Pairwise (fun a b => a.file = b.file → a.crowds b = false)
      ∧ ∀ x ∈ locations, x ∈ thin locations
        ∨ ∃ a ∈ thin locations, a.file = x.file ∧ a.start ≤ x.start ∧ a.crowds x = true := by
  have hsorted := pairwise_mergeSort_le locations
  have heq : thin locations = thinAll crowdsInFile [] (locations.mergeSort le) :=
    thinFrom_empty_eq (fun x hx => hspan x (List.mem_mergeSort.mp hx)) hsorted
  refine ⟨thinFrom_sublist _ _, ?_, fun x hx => ?_⟩
  · rw [heq]
    exact (thinAll_free [] _).2.imp crowdsInFile_eq_false_iff.mp
  · rw [heq]
    refine (mem_thinAll_or_crowded (fun _ h => absurd h List.not_mem_nil) hsorted x
      (List.mem_mergeSort.mpr hx)).imp_right ?_
    rintro ⟨a, ha, hle, hcrowds⟩
    obtain ⟨hfile, hcrowds⟩ := crowdsInFile_iff.mp hcrowds
    have := le_iff.mp hle
    exact ⟨a, ha, hfile, by omega, hcrowds⟩

/-- Of two locations the second is dropped if the first crowds it. -/
theorem thin_pair {a b : Location} (hle : le a b = true) (hfile : a.file = b.file)
    (hcrowds : a.crowds b = true) : thin [a, b] = [a] := by
  have hsorted : [a, b].mergeSort le = [a, b] :=
    List.mergeSort_of_pairwise (List.pairwise_pair.mpr hle)
  have hfirst : ¬ ((∅ : Std.HashMap Nat Location)[a.file]?).any
      (fun last => last.crowds a) = true := by
    simp
  have hsecond : (((∅ : Std.HashMap Nat Location).insert a.file a)[b.file]?).any
      (fun last => last.crowds b) = true := by
    rw [hfile, Std.HashMap.getElem?_insert_self]
    exact hcrowds
  rw [thin, hsorted, thinFrom, if_neg hfirst, thinFrom, if_pos hsecond, thinFrom]

theorem mem_of_mem_thin {locations : List Location} {x : Location} (h : x ∈ thin locations) :
    x ∈ locations :=
  List.mem_mergeSort.mp ((thinFrom_sublist _ _).subset h)

theorem nodup_thin {locations : List Location} (h : locations.Nodup) : (thin locations).Nodup :=
  ((List.mergeSort_perm _ _).nodup_iff.mpr h).sublist (thinFrom_sublist _ _)

/-! ## Thinning in terms of positions

The order of the scan leaves open how locations of one file with one start follow each other.  What
is kept may depend on it, what the kept and the dropped ones are does not. -/

/-- **A location lies mostly within another** if both are in one file and more than half of its
positions are positions of the other. -/
def MostlyWithin (b a : Location) : Prop :=
  a.file = b.file ∧ (Finset.Icc b.start b.stop).card
    < 2 * (Finset.Icc a.start a.stop ∩ Finset.Icc b.start b.stop).card

theorem card_inter (a b : Location) :
    ((Finset.Icc a.start a.stop ∩ Finset.Icc b.start b.stop).card : Int) = a.shared b := by
  have hinter : Finset.Icc a.start a.stop ∩ Finset.Icc b.start b.stop
      = Finset.Icc (max a.start b.start) (min a.stop b.stop) := by
    ext p
    rw [Finset.mem_inter, Finset.mem_Icc, Finset.mem_Icc, Finset.mem_Icc, max_le_iff, le_min_iff,
      and_and_and_comm]
  rw [hinter, Int.card_Icc, shared_eq]
  omega

theorem card_positions {a : Location} (h : a.start ≤ a.stop) :
    ((Finset.Icc a.start a.stop).card : Int) = a.extent := by
  rw [Int.card_Icc, extent]
  omega

/-- **Crowding is lying mostly within.** -/
theorem mostlyWithin_iff {a b : Location} (hb : b.start ≤ b.stop) :
    b.MostlyWithin a ↔ a.crowdsInFile b = true := by
  have hshared := card_inter a b
  have hextent := card_positions hb
  rw [crowdsInFile_iff, crowds_iff, MostlyWithin]
  refine and_congr_right fun _ => ?_
  omega

/-- **Two locations are compared within 32 bits** if no number on the way leaves them. -/
def FitsWord (a b : Location) : Prop :=
  ∀ n ∈ [min a.stop b.stop - max a.start b.start, a.shared b, a.shared b * 2, b.stop - b.start,
    b.extent], -2 ^ 31 ≤ n ∧ n < 2 ^ 31

theorem fitsWord_of_abs_lt {a b : Location} (ha : |a.start| < 2 ^ 29 ∧ |a.stop| < 2 ^ 29)
    (hb : |b.start| < 2 ^ 29 ∧ |b.stop| < 2 ^ 29) : a.FitsWord b := by
  rw [abs_lt, abs_lt] at ha hb
  have hshared := shared_eq a b
  intro n hn
  simp only [extent, List.mem_cons, List.not_mem_nil, or_false] at hn
  omega

/-- **Thinning a list in any order of the scan** — for every list of locations that do not end
before they start, and every arrangement of it by file and start, the scan keeps some of its entries
so that none lies mostly within one kept before it, and every entry it drops lies mostly within one
kept before it; entries are numbered, so that equal locations are told apart.  `thin` scans one of
these arrangements.  For positions of absolute value below `2 ^ 29` no number leaves 32 bits. -/
theorem thin_any_order {locations : List Location} (hspan : ∀ x ∈ locations, x.start ≤ x.stop) :
    (∀ sorted : List Location, sorted.Perm locations →
        sorted.Pairwise (fun a b => a.file < b.file ∨ a.file = b.file ∧ a.start ≤ b.start) →
        ∃ kept : List (Location × Nat), kept.Sublist sorted.zipIdx
          ∧ kept.map Prod.fst = thinFrom ∅ sorted
          ∧ kept.Pairwise (fun a x => ¬ x.1.MostlyWithin a.1)
          ∧ ∀ x ∈ sorted.zipIdx, x ∉ kept → ∃ a ∈ kept, a.2 < x.2 ∧ x.1.MostlyWithin a.1)
      ∧ (∃ sorted : List Location, sorted.Perm locations
        ∧ sorted.Pairwise (fun a b => a.file < b.file ∨ a.file = b.file ∧ a.start ≤ b.start)
        ∧ thin locations = thinFrom ∅ sorted)
      ∧ ((∀ x ∈ locations, |x.start| < 2 ^ 29 ∧ |x.stop| < 2 ^ 29) →
        ∀ a ∈ locations, ∀ b ∈ locations, a.FitsWord b) := by
  refine ⟨fun sorted hperm hsorted => ?_, ?_,
    fun hbound a ha b hb => fitsWord_of_abs_lt (hbound a ha) (hbound b hb)⟩
  · have hspan' : ∀ x ∈ sorted, x.start ≤ x.stop := fun x hx => hspan x (hperm.mem_iff.mp hx)
    have hnumbered : ∀ x ∈ sorted.zipIdx, x.1.start ≤ x.1.stop := fun x hx =>
      hspan' x.1 (List.fst_mem_of_mem_zipIdx hx)
    have hsub := thinAll_sublist (fun a b : Location × Nat => a.1.crowdsInFile b.1) [] sorted.zipIdx
    refine ⟨_, hsub, ?_, ?_, fun x hx hdropped => ?_⟩
    · rw [map_thinAll, List.zipIdx_map_fst, thinFrom_empty_eq hspan' (hsorted.imp le_iff.mpr)]
      rfl
    · refine (thinAll_free [] _).2.imp_of_mem fun {a x} _ hx hfree => ?_
      rw [mostlyWithin_iff (hnumbered x (hsub.subset hx)), Bool.not_eq_true]
      exact hfree
    · obtain ⟨a, ha, hlt, hcrowds⟩ := (mem_thinAll_or_crowded (fun _ h => absurd h List.not_mem_nil)
        (pairwise_snd_zipIdx sorted) x hx).resolve_left hdropped
      exact ⟨a, ha, hlt, (mostlyWithin_iff (hnumbered x hx)).mpr hcrowds⟩
  · exact ⟨locations.mergeSort le, List.mergeSort_perm _ _,
      (pairwise_mergeSort_le locations).imp le_iff.mp, rfl⟩

/-- Two locations with one start, arranged the other way round than they are given: the shorter one
lies within the longer one and is dropped, while one that shares a little with it is kept. -/
theorem thin_any_order_of_one_start :
    let long : Location := ⟨0, 1, 2, 0, 9⟩
    let short : Location := ⟨0, 1, 1, 0, 3⟩
    let later : Location := ⟨0, 2, 3, 8, 20⟩
    (∀ x ∈ [short, long, later], x.start ≤ x.stop)
      ∧ [long, short, later].Perm [short, long, later]
      ∧ [long, short, later].Pairwise
        (fun a b => a.file < b.file ∨ a.file = b.file ∧ a.start ≤ b.start)
      ∧ thinFrom ∅ [long, short, later] = [long, later]
      ∧ (∃ kept : List (Location × Nat), kept.Sublist [(long, 0), (short, 1), (later, 2)]
        ∧ kept.map Prod.fst = [long, later]
        ∧ kept.Pairwise (fun a x => ¬ x.1.MostlyWithin a.1)
        ∧ (short, 1) ∉ kept ∧ ∃ a ∈ kept, a.2 < 1 ∧ short.MostlyWithin a.1)
      ∧ (∀ x ∈ [short, long, later], |x.start| < 2 ^ 29 ∧ |x.stop| < 2 ^ 29)
      ∧ long.FitsWord short := by
  intro long short later
  have hspan : ∀ x ∈ [short, long, later], x.start ≤ x.stop := by decide
  have hperm : [long, short, later].Perm [short, long, later] := List.Perm.swap _ _ _
  have hsorted : [long, short, later].Pairwise
      (fun a b => a.file < b.file ∨ a.file = b.file ∧ a.start ≤ b.start) := by decide
  have hbound : ∀ x ∈ [short, long, later], |x.start| < 2 ^ 29 ∧ |x.stop| < 2 ^ 29 := by decide
  have hthin : thinFrom ∅ [long, short, later] = [long, later] := by
    rw [thinFrom_empty_eq (fun x hx => hspan x (hperm.mem_iff.mp hx)) (hsorted.imp le_iff.mpr)]
    decide
  obtain ⟨harranged, -, hfits⟩ := thin_any_order hspan
  obtain ⟨kept, hsub, hkept, hfree, hcrowded⟩ := harranged _ hperm hsorted
  rw [hthin] at hkept
  have hdropped : (short, 1) ∉ kept := fun hmem => by
    have hshort := List.mem_map_of_mem (f := Prod.fst) hmem
    rw [hkept] at hshort
    revert hshort
    decide
  exact ⟨hspan, hperm, hsorted, hthin,
    ⟨kept, hsub, hkept, hfree, hdropped, hcrowded (short, 1) (by simp) hdropped⟩, hbound,
    hfits hbound long (by simp) short (by simp)⟩

end CodeClones.Location
