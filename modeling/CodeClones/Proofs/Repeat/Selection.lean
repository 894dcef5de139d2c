import CodeClones.Proofs.Repeat.Region

/-!
# Proofs/Repeat/Selection — what is not selected is covered

The covered array shows which positions the repeats kept so far reach (`Shows`).  The candidates
come in descending order of length, so a candidate that is dropped is mostly covered, at each of its
occurrences, by repeats that are at least as long (`mem_selected_or_covered`).
-/

namespace CodeClones

/-! ## Most offsets -/

/-- **Most offsets** — more than half of those below `length` have a property. -/
def MostOf (length : Nat) (has : Nat → Prop) : Prop :=
  ∃ offsets : List Nat, offsets.Nodup ∧ length < 2 * offsets.length
    ∧ ∀ t ∈ offsets, t < length ∧ has t

theorem MostOf.mono {length : Nat} {has has' : Nat → Prop} (h : MostOf length has)
    (himp : ∀ t < length, has t → has' t) : MostOf length has' := by
  obtain ⟨offsets, hnodup, hmany, hall⟩ := h
  exact ⟨offsets, hnodup, hmany, fun t ht => ⟨(hall t ht).1, himp t (hall t ht).1 (hall t ht).2⟩⟩

theorem mostOf_congr {length : Nat} {has has' : Nat → Prop}
    (h : ∀ t < length, (has t ↔ has' t)) : MostOf length has ↔ MostOf length has' :=
  ⟨fun hmost => hmost.mono fun t ht => (h t ht).mp,
    fun hmost => hmost.mono fun t ht => (h t ht).mpr⟩

/-- Counting the offsets. -/
theorem mostOf_iff_countP {length : Nat} {has : Nat → Prop} [DecidablePred has] :
    MostOf length has ↔ length < 2 * (List.range length).countP fun t => decide (has t) := by
  rw [List.countP_eq_length_filter]
  constructor
  · rintro ⟨offsets, hnodup, hmany, hall⟩
    have hsub : offsets ⊆ (List.range length).filter fun t => decide (has t) := fun t ht =>
      List.mem_filter.mpr ⟨List.mem_range.mpr (hall t ht).1, decide_eq_true (hall t ht).2⟩
    have hle := (List.subperm_of_subset hnodup hsub).length_le
    omega
  · intro hmany
    refine ⟨_, List.nodup_range.filter _, hmany, fun t ht => ?_⟩
    obtain ⟨hlt, hhas⟩ := List.mem_filter.mp ht
    exact ⟨List.mem_range.mp hlt, of_decide_eq_true hhas⟩

namespace Repeat

/-! ## Covered positions -/

/-- **A repeat covers a position** if the position lies in one of its occurrences. -/
def Covers (chosen : Repeat) (q : Nat) : Prop :=
  ∃ i ∈ chosen.positions, i ≤ q ∧ q < i + chosen.length

instance (chosen : Repeat) (q : Nat) : Decidable (chosen.Covers q) :=
  inferInstanceAs (Decidable (∃ i ∈ chosen.positions, i ≤ q ∧ q < i + chosen.length))

theorem mem_span {size length position q : Nat} :
    q ∈ span size length position ↔ position ≤ q ∧ q < position + length ∧ q < size := by
  rw [span, List.mem_range'_1]
  omega

/-- The positions of an occurrence that ends within the text. -/
theorem span_eq_map {size length position : Nat} (hsize : position + length ≤ size) :
    span size length position = (List.range length).map (position + ·) := by
  rw [span, Nat.min_eq_right hsize, Nat.add_sub_cancel_left, List.range'_eq_map_range]

/-! ## The covered array -/

/-- **The array shows what some repeats cover.** -/
structure Shows (size : Nat) (covered : Array Bool) (kept : List Repeat) : Prop where
  size_eq : covered.size = size
  covered_iff : ∀ {q : Nat}, q < size → (covered[q]? = some true ↔ ∃ r ∈ kept, r.Covers q)

theorem shows_blank (size : Nat) : Shows size (Array.replicate size false) [] where
  size_eq := Array.size_replicate
  covered_iff hq := by simp [hq]

theorem size_mark (covered : Array Bool) (places : List Nat) :
    (places.foldl (fun c p => c.setIfInBounds p true) covered).size = covered.size := by
  induction places generalizing covered with
  | nil => rfl
  | cons p places ih => rw [List.foldl_cons, ih, Array.size_setIfInBounds]

theorem mark_iff {covered : Array Bool} {places : List Nat} {q : Nat} (hq : q < covered.size) :
    (places.foldl (fun c p => c.setIfInBounds p true) covered)[q]? = some true
      ↔ covered[q]? = some true ∨ q ∈ places := by
  induction places generalizing covered with
  | nil => simp
  | cons p places ih =>
    rw [List.foldl_cons, ih (by rwa [Array.size_setIfInBounds]), List.mem_cons]
    rcases eq_or_ne p q with rfl | hne
    · rw [Array.getElem?_setIfInBounds_self_of_lt hq]
      simp
    · rw [Array.getElem?_setIfInBounds_ne hne]
      simp [hne.symm]

/-- Marking some occurrences one after the other. -/
theorem foldl_mark_iff {size : Nat} (length : Nat) (positions : List Nat) {marks : Array Bool}
    (hmarks : marks.size = size) :
    (positions.foldl (fun c position =>
        (span c.size length position).foldl (fun c p => c.setIfInBounds p true) c) marks).size
        = size
      ∧ ∀ q < size, (positions.foldl (fun c position =>
          (span c.size length position).foldl (fun c p => c.setIfInBounds p true) c) marks)[q]?
          = some true
        ↔ marks[q]? = some true ∨ ∃ i ∈ positions, i ≤ q ∧ q < i + length := by
  induction positions generalizing marks with
  | nil => exact ⟨hmarks, fun q _ => by simp⟩
  | cons i positions ih =>
    obtain ⟨hsize, hiff⟩ := ih ((size_mark marks (span marks.size length i)).trans hmarks)
    refine ⟨hsize, fun q hq => ?_⟩
    rw [List.foldl_cons, hiff q hq, mark_iff (by rwa [hmarks]), mem_span, hmarks,
      List.exists_mem_cons_iff]
    constructor
    · rintro ((hcov | ⟨hle, hlt, -⟩) | hrest)
      · exact Or.inl hcov
      · exact Or.inr (Or.inl ⟨hle, hlt⟩)
      · exact Or.inr (Or.inr hrest)
    · rintro (hcov | ⟨hle, hlt⟩ | hrest)
      · exact Or.inl (Or.inl hcov)
      · exact Or.inl (Or.inr ⟨hle, hlt, hq⟩)
      · exact Or.inr hrest

/-- **Marking the occurrences of a repeat.** -/
theorem Shows.cover {size : Nat} {covered : Array Bool} {kept : List Repeat}
    (h : Shows size covered kept) (chosen : Repeat) :
    Shows size (cover covered chosen) (kept ++ [chosen]) := by
  obtain ⟨hsize, hiff⟩ := foldl_mark_iff chosen.length chosen.positions h.size_eq
  refine ⟨hsize, fun {q} hq => ?_⟩
  rw [Repeat.cover, hiff q hq, h.covered_iff hq]
  constructor
  · rintro (⟨r, hr, hcovers⟩ | hcovers)
    · exact ⟨r, List.mem_append_left _ hr, hcovers⟩
    · exact ⟨chosen, List.mem_append_right _ (List.mem_singleton_self _), hcovers⟩
  · rintro ⟨r, hr, hcovers⟩
    rcases List.mem_append.mp hr with hr | hr
    · exact Or.inl ⟨r, hr, hcovers⟩
    · exact Or.inr (List.mem_singleton.mp hr ▸ hcovers)

/-! ## The selection -/

theorem select_sublist (covered : Array Bool) (candidates : List Repeat) :
    (select covered candidates).Sublist candidates := by
  induction candidates generalizing covered with
  | nil => exact List.Sublist.refl _
  | cons candidate rest ih =>
    rw [select]
    split
    · exact (ih _).cons_cons candidate
    · exact (ih covered).cons candidate

/-- **An occurrence is mostly covered** — more than half of it lies in occurrences of other repeats
that are at least as long. -/
def MostlyCovered (size : Nat) (kept : List Repeat) (length position : Nat) : Prop :=
  (span size length position).length
    < 2 * (span size length position).countP fun q =>
        decide (∃ r ∈ kept, length ≤ r.length ∧ r.Covers q)

theorem MostlyCovered.mono {size length position : Nat} {kept kept' : List Repeat}
    (h : MostlyCovered size kept length position) (hsub : kept ⊆ kept') :
    MostlyCovered size kept' length position := by
  refine lt_of_lt_of_le h (Nat.mul_le_mul_left 2 (List.countP_mono_left fun q _ hq => ?_))
  obtain ⟨r, hr, hcovers⟩ := of_decide_eq_true hq
  exact decide_eq_true ⟨r, hsub hr, hcovers⟩

/-- The offsets at which a mostly covered occurrence is covered. -/
theorem MostlyCovered.exists_offsets {size length position : Nat} {kept : List Repeat}
    (h : MostlyCovered size kept length position) (hsize : position + length ≤ size) :
    MostOf length fun t => ∃ r ∈ kept, length ≤ r.length ∧ r.Covers (position + t) := by
  rw [MostlyCovered, span_eq_map hsize, List.length_map, List.length_range, List.countP_map] at h
  exact mostOf_iff_countP.mpr h

theorem mostlyCovered_of_not_fresh {size : Nat} {covered : Array Bool} {kept : List Repeat}
    (hshows : Shows size covered kept) {candidate : Repeat}
    (hlong : ∀ r ∈ kept, candidate.length ≤ r.length) (h : ¬ isFresh covered candidate = true)
    {i : Nat} (hi : i ∈ candidate.positions) :
    MostlyCovered size kept candidate.length i := by
  have hnot : ¬ isFreshAt covered candidate.length i = true := fun hfresh =>
    h (List.any_eq_true.mpr ⟨i, hi, hfresh⟩)
  rw [isFreshAt, hshows.size_eq, decide_eq_true_iff, not_le] at hnot
  rw [MostlyCovered]
  refine lt_of_lt_of_eq hnot ?_
  rw [Nat.mul_comm]
  congr 1
  refine List.countP_congr fun q hq => ?_
  have hq := (mem_span.mp hq).2.2
  rw [decide_eq_true_iff]
  have hiff := hshows.covered_iff hq
  have hlt : q < covered.size := hshows.size_eq ▸ hq
  rw [Array.getElem?_eq_getElem hlt, Option.some.injEq] at hiff
  rw [Array.getElem?_eq_getElem hlt, Option.getD_some, hiff]
  constructor
  · rintro ⟨r, hr, hcovers⟩
    exact ⟨r, hr, hlong r hr, hcovers⟩
  · rintro ⟨r, hr, -, hcovers⟩
    exact ⟨r, hr, hcovers⟩

/-- **What is dropped is mostly covered by what is kept.** -/
theorem mem_select_or_covered {size : Nat} {covered : Array Bool} {kept candidates : List Repeat}
    (hshows : Shows size covered kept)
    (hsorted : candidates.Pairwise fun a b => b.length ≤ a.length)
    (hlong : ∀ r ∈ kept, ∀ candidate ∈ candidates, candidate.length ≤ r.length) :
    ∀ candidate ∈ candidates, candidate ∈ select covered candidates
      ∨ ∀ i ∈ candidate.positions,
        MostlyCovered size (kept ++ select covered candidates) candidate.length i := by
  induction candidates generalizing covered kept with
  | nil => exact fun _ h => absurd h List.not_mem_nil
  | cons first rest ih =>
    obtain ⟨hfirst, hsorted⟩ := List.pairwise_cons.mp hsorted
    have hlong' := fun r hr c hc => hlong r hr c (List.mem_cons_of_mem first hc)
    intro candidate hcandidate
    rw [select]
    split
    · rcases List.mem_cons.mp hcandidate with rfl | hcandidate
      · exact Or.inl List.mem_cons_self
      · have hrest := ih (hshows.cover first) hsorted (fun r hr c hc => by
          rcases List.mem_append.mp hr with hr | hr
          · exact hlong' r hr c hc
          · rw [List.mem_singleton.mp hr]
            exact hfirst c hc) candidate hcandidate
        rw [List.append_assoc] at hrest
        exact hrest.imp_left (List.mem_cons_of_mem first)
    · next hstale =>
      rcases List.mem_cons.mp hcandidate with rfl | hcandidate
      · exact Or.inr fun i hi => (mostlyCovered_of_not_fresh hshows
          (fun r hr => hlong r hr candidate List.mem_cons_self) hstale hi).mono
            (List.subset_append_left _ _)
      · exact ih hshows hsorted hlong' candidate hcandidate

end Repeat

namespace RepeatTable

open Repeat

/-- The order of the selection: longer ones first. -/
theorem pairwise_length_mergeSort (found : List Repeat) :
    (found.mergeSort fun a b => decide (b.length ≤ a.length)).Pairwise
      fun a b => b.length ≤ a.length :=
  Order.pairwise_mergeSort_key (fun r : Repeat => OrderDual.toDual r.length)
    (fun _ _ => decide_eq_true_iff) found

theorem mem_regions_of_mem_selected {table : RepeatTable} {least : Int} {region : Repeat}
    (h : region ∈ table.selected least) : region ∈ table.regions least :=
  List.mem_mergeSort.mp ((select_sublist _ _).subset h)

/-- **Every region is selected, or every occurrence of it is mostly covered** by selected regions at
least as long. -/
theorem mem_selected_or_covered {table : RepeatTable} {least : Int} {region : Repeat}
    (h : region ∈ table.regions least) :
    region ∈ table.selected least
      ∨ ∀ i ∈ region.positions,
        MostlyCovered table.lengths.size (table.selected least) region.length i :=
  mem_select_or_covered (shows_blank _) (pairwise_length_mergeSort _)
    (fun _ hr => absurd hr List.not_mem_nil) region (List.mem_mergeSort.mpr h)

end RepeatTable

end CodeClones
