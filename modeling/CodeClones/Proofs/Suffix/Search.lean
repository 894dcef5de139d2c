import CodeClones.Proofs.Order.Boundary
import CodeClones.Proofs.Repeat.CommonPrefix
import CodeClones.Suffix.Search

/-!
# Proofs/Suffix/Search — the range of a pattern holds its occurrences

A suffix is compared with a pattern by its *opening*, its initial part of the length of the pattern
(`compareAt_spec`).  Openings ascend along the sorted order (`opening_le_of_places`), also those of
suffixes that are too short, so each of the two predicates that are searched for holds on an initial
part of its range, whatever symbols the pattern has (`lt_lower_iff`, `lt_upper_iff`).  So the range
holds the places whose suffixes start with the pattern (`mem_range_iff`).
-/

namespace CodeClones

open Suffix

namespace SuffixArray

variable {text : Array Int} {pattern : List Int} {i j k l : Nat}

/-! ## Openings -/

/-- The initial part of a suffix, as long as the pattern or up to the end of the text. -/
def opening (text : Array Int) (pattern : List Int) (i : Nat) : List Int :=
  (text.toList.drop i).take pattern.length

theorem opening_eq_nil (h : text[i]? = none) : opening text pattern i = [] := by
  rw [← Array.getElem?_toList, List.getElem?_eq_none_iff] at h
  rw [opening, List.drop_eq_nil_of_le h, List.take_nil]

theorem opening_cons {a : Int} (h : text[i]? = some a) (symbol : Int) :
    opening text (symbol :: pattern) i = a :: opening text pattern (i + 1) := by
  rw [← Array.getElem?_toList] at h
  obtain ⟨hi, rfl⟩ := List.getElem?_eq_some_iff.mp h
  rw [opening, opening, List.drop_eq_getElem_cons hi, List.length_cons, List.take_succ_cons]

/-- **A suffix compares with a pattern as its opening does** — a smaller one has a smaller opening,
and one that starts with the pattern is opened by it. -/
theorem compareAt_spec :
    (compareAt text i pattern = .lt ↔ opening text pattern i < pattern)
      ∧ (compareAt text i pattern = .eq ↔ opening text pattern i = pattern) := by
  induction pattern generalizing i with
  | nil => simp [compareAt, opening]
  | cons symbol pattern ih =>
    rw [compareAt]
    cases h : text[i]? with
    | none => simp [opening_eq_nil h]
    | some a =>
      rw [opening_cons h, List.cons_lt_cons_iff, List.cons.injEq]
      dsimp only
      split_ifs with heq hlt
      · rw [ih.1, ih.2, heq]
        simp
      · simp [heq, hlt]
      · simp [heq, hlt]

/-- Of two lists, the one with the smaller initial part is smaller. -/
theorem lt_of_take_lt_take {as bs : List Int} {n : Nat} (h : as.take n < bs.take n) : as < bs := by
  induction n generalizing as bs with
  | zero => exact absurd h (lt_irrefl _)
  | succ n ih =>
    match as, bs with
    | _, [] => exact absurd h (by rw [List.take_nil]; exact List.not_lt_nil _)
    | [], b :: bs => exact List.nil_lt_cons b bs
    | a :: as, b :: bs =>
      rw [List.take_succ_cons, List.take_succ_cons, List.cons_lt_cons_iff] at h
      rw [List.cons_lt_cons_iff]
      exact h.imp id fun ⟨heq, hlt⟩ => ⟨heq, ih hlt⟩

/-! ## Along the sorted order -/

section Sorted

variable {suffixes : SuffixArray}
  (hsorted : Sorted (fun a b => decide (a < b)) suffixes.text suffixes.order)

include hsorted

/-- **Openings ascend along the sorted order.** -/
theorem opening_le_of_places (hi : suffixes.order[k]? = some i) (hj : suffixes.order[l]? = some j)
    (hkl : k ≤ l) : opening suffixes.text pattern i ≤ opening suffixes.text pattern j := by
  rcases Nat.eq_or_lt_of_le hkl with rfl | hlt
  · rw [Option.some.inj (hi.symm.trans hj)]
  · have hdrop := Repeat.drop_lt_of_place_lt hsorted hi hj hlt
    exact not_lt.mp fun h => lt_asymm hdrop (lt_of_take_lt_take h)

/-- What comes before a smaller opening is smaller. -/
theorem compareRank_lt_of_le (hkl : k ≤ l) (hl : suffixes.compareRank pattern l = some .lt) :
    suffixes.compareRank pattern k = some .lt := by
  obtain ⟨j, hj, hlt⟩ := Option.map_eq_some_iff.mp hl
  have hk : k < suffixes.order.size :=
    Nat.lt_of_le_of_lt hkl (Array.getElem?_eq_some_iff.mp hj).1
  have hi := Array.getElem?_eq_getElem hk
  refine Option.map_eq_some_iff.mpr ⟨_, hi, compareAt_spec.1.mpr ?_⟩
  exact lt_of_le_of_lt (opening_le_of_places hsorted hi hj hkl) (compareAt_spec.1.mp hlt)

/-- What lies between an opening that is not smaller and the pattern itself is the pattern. -/
theorem compareRank_eq_of_le (hkl : k ≤ l) (hk : suffixes.compareRank pattern k ≠ some .lt)
    (hl : suffixes.compareRank pattern l = some .eq) :
    suffixes.compareRank pattern k = some .eq := by
  obtain ⟨j, hj, heq⟩ := Option.map_eq_some_iff.mp hl
  have hlt : k < suffixes.order.size :=
    Nat.lt_of_le_of_lt hkl (Array.getElem?_eq_some_iff.mp hj).1
  have hi := Array.getElem?_eq_getElem hlt
  have hle : opening suffixes.text pattern _ ≤ opening suffixes.text pattern j :=
    opening_le_of_places hsorted hi hj hkl
  rw [compareAt_spec.2.mp heq] at hle
  refine Option.map_eq_some_iff.mpr ⟨_, hi, compareAt_spec.2.mpr (le_antisymm hle ?_)⟩
  exact not_lt.mp fun h => hk (Option.map_eq_some_iff.mpr ⟨_, hi, compareAt_spec.1.mpr h⟩)

/-! ## Both ends of the range -/

omit hsorted in
/-- The first place whose opening is not smaller than the pattern. -/
def lower (suffixes : SuffixArray) (pattern : List Int) : Nat :=
  Order.boundary (fun k => suffixes.compareRank pattern k == some .lt) 0 suffixes.size

omit hsorted in
/-- The first place from there on whose opening is not the pattern. -/
def upper (suffixes : SuffixArray) (pattern : List Int) : Nat :=
  Order.boundary (fun k => suffixes.compareRank pattern k == some .eq) (suffixes.lower pattern)
    (suffixes.size - suffixes.lower pattern)

omit hsorted in
theorem lower_le_upper (suffixes : SuffixArray) (pattern : List Int) :
    suffixes.lower pattern ≤ suffixes.upper pattern :=
  Order.le_boundary _ _ _

omit hsorted in
theorem upper_le_size (suffixes : SuffixArray) (pattern : List Int) :
    suffixes.upper pattern ≤ suffixes.size := by
  have hlower : suffixes.lower pattern ≤ 0 + suffixes.size := Order.boundary_le _ _ _
  have hupper : suffixes.upper pattern
      ≤ suffixes.lower pattern + (suffixes.size - suffixes.lower pattern) :=
    Order.boundary_le _ _ _
  omega

omit hsorted in
theorem range_eq (suffixes : SuffixArray) (hpattern : pattern ≠ []) :
    suffixes.range pattern = (suffixes.lower pattern, suffixes.upper pattern) := by
  rw [range]
  split
  · next hnone =>
    rw [Bool.or_eq_true, List.isEmpty_iff] at hnone
    have hsize : suffixes.size = 0 :=
      Array.isEmpty_iff_size_eq_zero.mp (hnone.resolve_left hpattern)
    have hlower := suffixes.lower_le_upper pattern
    have hupper := Nat.le_zero.mp (hsize ▸ suffixes.upper_le_size pattern)
    rw [hupper] at hlower ⊢
    rw [Nat.le_zero.mp hlower]
  · rfl

/-- **Before the range** openings are smaller than the pattern, and nowhere else. -/
theorem lt_lower_iff (hk : k < suffixes.size) :
    k < suffixes.lower pattern ↔ suffixes.compareRank pattern k = some .lt := by
  rw [lower, Order.lt_boundary_iff (fun k l _ hkl _ h => ?_) (Nat.zero_le k) (by omega),
    beq_iff_eq]
  rw [beq_iff_eq] at h ⊢
  exact compareRank_lt_of_le hsorted hkl h

/-- From there on the pattern itself comes first. -/
theorem lt_upper_iff (hk : k < suffixes.size) (hlower : suffixes.lower pattern ≤ k) :
    k < suffixes.upper pattern ↔ suffixes.compareRank pattern k = some .eq := by
  rw [upper, Order.lt_boundary_iff (fun k l hlower hkl hl h => ?_) hlower (by omega), beq_iff_eq]
  rw [beq_iff_eq] at h ⊢
  refine compareRank_eq_of_le hsorted hkl (fun hless => ?_) h
  exact Nat.not_lt_of_le hlower ((lt_lower_iff hsorted (by omega)).mpr hless)

/-- **In the range** openings are the pattern, and nowhere else. -/
theorem lower_le_and_lt_upper_iff (hk : k < suffixes.size) :
    suffixes.lower pattern ≤ k ∧ k < suffixes.upper pattern
      ↔ suffixes.compareRank pattern k = some .eq := by
  refine ⟨fun ⟨hlower, hupper⟩ => (lt_upper_iff hsorted hk hlower).mp hupper, fun heq => ?_⟩
  have hlower : suffixes.lower pattern ≤ k := Nat.le_of_not_lt fun hlt => by
    rw [lt_lower_iff hsorted hk, heq] at hlt
    exact absurd (Option.some.inj hlt) nofun
  exact ⟨hlower, (lt_upper_iff hsorted hk hlower).mpr heq⟩

omit hsorted in
theorem compareRank_eq_iff (hk : suffixes.order[k]? = some i) :
    suffixes.compareRank pattern k = some .eq ↔ pattern <+: suffixes.text.toList.drop i := by
  rw [compareRank, hk, Option.map_some, Option.some_inj, compareAt_spec.2,
    List.prefix_iff_eq_take, eq_comm, opening]

/-- **The range of a pattern** — exactly the places whose suffixes start with it. -/
theorem mem_range_iff (hpattern : pattern ≠ []) (hk : suffixes.order[k]? = some i) :
    (suffixes.range pattern).1 ≤ k ∧ k < (suffixes.range pattern).2
      ↔ pattern <+: suffixes.text.toList.drop i := by
  rw [suffixes.range_eq hpattern, lower_le_and_lt_upper_iff hsorted
    (Array.getElem?_eq_some_iff.mp hk).1, compareRank_eq_iff hk]

end Sorted

/-! ## Occurrences -/

/-- **A pattern stands at a position** if the text from there on starts with it. -/
theorem extract_eq_iff (hpattern : pattern ≠ []) :
    (text.extract i (i + pattern.length)).toList = pattern
      ↔ i < text.size ∧ pattern <+: text.toList.drop i := by
  rw [Array.toList_extract, List.extract_eq_take_drop, Nat.add_sub_cancel_left,
    List.prefix_iff_eq_take, eq_comm (a := pattern)]
  refine ⟨fun h => ⟨?_, h⟩, And.right⟩
  by_contra hge
  rw [List.drop_eq_nil_of_le (by simpa using hge), List.take_nil] at h
  exact hpattern h.symm

/-- **The occurrences of a pattern** are the positions from which on the text starts with it. -/
theorem mem_occurrences_iff {suffixes : SuffixArray}
    (hsorted : Sorted (fun a b => decide (a < b)) suffixes.text suffixes.order)
    (hpattern : pattern ≠ []) {p : Nat} : p ∈ suffixes.occurrences pattern
      ↔ p < suffixes.text.size ∧ pattern <+: suffixes.text.toList.drop p := by
  rw [occurrences, Repeat.mem_stretch_iff]
  constructor
  · rintro ⟨k, hfirst, hlast, hp⟩
    exact ⟨Repeat.lt_of_sorted hsorted hp, (mem_range_iff hsorted hpattern hp).mp ⟨hfirst, hlast⟩⟩
  · rintro ⟨hlt, hprefix⟩
    obtain ⟨k, hk⟩ := Repeat.exists_place hsorted hlt
    obtain ⟨hfirst, hlast⟩ := (mem_range_iff hsorted hpattern hk).mpr hprefix
    exact ⟨k, hfirst, hlast, hk⟩

/-- Without a pattern or without suffixes nothing is searched for. -/
theorem range_eq_zero {suffixes : SuffixArray} (h : pattern = [] ∨ suffixes.order = #[]) :
    suffixes.range pattern = (0, 0) := by
  refine if_pos ?_
  rcases h with rfl | h
  · rfl
  · rw [h]
    exact Bool.or_true _

theorem occurrences_eq_nil {suffixes : SuffixArray} (h : suffixes.range pattern = (0, 0)) :
    suffixes.occurrences pattern = [] := by
  rw [occurrences, h]
  simp

/-- **What is found is what is there** — for every text and every pattern that is not empty, the
range holds exactly the places of the sorted order whose suffixes start with the pattern, and the
occurrences are, in ascending order, exactly the positions at which the text reads the pattern.
Nothing is found of the empty pattern, nor in the empty text. -/
theorem range_and_occurrences (text : Array Int) (pattern : List Int) :
    let suffixes := ofText text
    let range := suffixes.range pattern
    (pattern ≠ [] → range.1 ≤ range.2 ∧ range.2 ≤ suffixes.size
        ∧ (∀ k i : Nat, suffixes.order[k]? = some i →
          (range.1 ≤ k ∧ k < range.2 ↔ pattern <+: text.toList.drop i))
        ∧ (suffixes.occurrences pattern).Pairwise (· < ·)
        ∧ ∀ p, p ∈ suffixes.occurrences pattern
          ↔ (text.extract p (p + pattern.length)).toList = pattern)
      ∧ (pattern = [] ∨ text = #[] → range = (0, 0) ∧ suffixes.occurrences pattern = []) := by
  intro suffixes range
  have hsorted : Sorted (fun a b => decide (a < b)) suffixes.text suffixes.order :=
    sorted_suffixArray text
  constructor
  · intro hpattern
    have hrange : range = (suffixes.lower pattern, suffixes.upper pattern) :=
      suffixes.range_eq hpattern
    refine ⟨?_, ?_, fun k i hk => mem_range_iff hsorted hpattern hk,
      Repeat.pairwise_stretch hsorted _ _, fun p => ?_⟩
    · rw [hrange]
      exact suffixes.lower_le_upper pattern
    · rw [hrange]
      exact suffixes.upper_le_size pattern
    · exact (mem_occurrences_iff hsorted hpattern).trans (extract_eq_iff hpattern).symm
  · intro hnone
    have hrange : range = (0, 0) := range_eq_zero (hnone.imp_right fun htext => by
      rw [show suffixes = ofText text from rfl, htext]
      rfl)
    exact ⟨hrange, occurrences_eq_nil hrange⟩

/-- The pattern `a n` stands twice in `b a n a n a`; a symbol that is nowhere in the text is not
found. -/
theorem range_and_occurrences_of_banana :
    ([1, 3] : List Int) ≠ []
      ∧ (∀ p, p ∈ (ofText #[2, 1, 3, 1, 3, 1]).occurrences [1, 3]
        ↔ ((#[2, 1, 3, 1, 3, 1] : Array Int).extract p (p + 2)).toList = [1, 3])
      ∧ (ofText #[2, 1, 3, 1, 3, 1]).range [] = (0, 0)
      ∧ ∀ p, p ∉ (ofText #[2, 1, 3, 1, 3, 1]).occurrences [9] := by
  obtain ⟨-, -, -, -, hmem⟩ := (range_and_occurrences #[2, 1, 3, 1, 3, 1] [1, 3]).1 (by decide)
  obtain ⟨-, -, -, -, habsent⟩ := (range_and_occurrences #[2, 1, 3, 1, 3, 1] [9]).1 (by decide)
  refine ⟨by decide, hmem, ((range_and_occurrences #[2, 1, 3, 1, 3, 1] []).2 (Or.inl rfl)).1,
    fun p hp => ?_⟩
  have h := (habsent p).mp hp
  have hsymbol : (9 : Int) ∈ (#[2, 1, 3, 1, 3, 1] : Array Int).toList := by
    rw [Array.toList_extract, List.extract_eq_take_drop] at h
    exact List.mem_of_mem_drop (List.mem_of_mem_take (h ▸ List.mem_singleton_self 9))
  exact absurd hsymbol (by decide)

end SuffixArray

end CodeClones
