import CodeClones.Similarity.Overlap
import Mathlib

/-!
# Proofs/Similarity/Rational — scores as exact rational numbers

A hash set has each of its members once, so the overlap of two hash sets counts what the finite sets
share (`ofSets_eq`).  With rational scores the mean of some overlaps is their sum out of their
number (`mean_eq`), with no rounding on the way.
-/

namespace CodeClones

/-- **Rational scores** — every operation is exact. -/
instance : Scoring ℚ where
  zero := 0
  one := 1
  quotient shared total := shared / total
  add a b := a + b
  divide a count := a / count
  less a b := decide (a < b)

namespace Overlap

/-! ## Overlaps of sets -/

section Sets

variable {α : Type} [DecidableEq α] [Hashable α]

theorem nodup_toList (set : Std.HashSet α) : set.toList.Nodup :=
  Std.HashSet.distinct_toList.imp fun hab => by simpa using hab

/-- **A hash set has each of its members once.** -/
theorem size_eq_card (set : Std.HashSet α) : set.size = set.toList.toFinset.card := by
  rw [← Std.HashSet.length_toList, List.toFinset_card_of_nodup (nodup_toList set)]

/-- Counting the members of one set that are in another. -/
theorem countP_contains (as bs : Std.HashSet α) :
    as.toList.countP bs.contains = (as.toList.toFinset ∩ bs.toList.toFinset).card := by
  have hcommon : (as.toList.filter bs.contains).toFinset
      = as.toList.toFinset ∩ bs.toList.toFinset := by
    ext a
    rw [List.toFinset_filter, Finset.mem_filter, Finset.mem_inter, List.mem_toFinset,
      List.mem_toFinset, Std.HashSet.mem_toList, Std.HashSet.mem_toList,
      Std.HashSet.contains_iff_mem]
  rw [List.countP_eq_length_filter, ← hcommon,
    List.toFinset_card_of_nodup ((nodup_toList as).filter _)]

/-- **The overlap of two hash sets** counts what the sets share and what either has. -/
theorem ofSets_eq (as bs : Std.HashSet α) :
    ofSets as bs = ⟨(as.toList.toFinset ∩ bs.toList.toFinset).card,
      (as.toList.toFinset ∪ bs.toList.toFinset).card⟩ := by
  have hcommon : commonMembers as bs = (as.toList.toFinset ∩ bs.toList.toFinset).card := by
    rw [commonMembers]
    split
    · exact countP_contains as bs
    · rw [countP_contains, Finset.inter_comm]
  rw [ofSets, hcommon, size_eq_card, size_eq_card, Finset.card_union]

theorem toFinset_toList_ofList (entries : List α) :
    (Std.HashSet.ofList entries).toList.toFinset = entries.toFinset := by
  ext a
  rw [List.mem_toFinset, Std.HashSet.mem_toList, Std.HashSet.mem_ofList, List.mem_toFinset,
    List.contains_iff_mem]

/-- The overlap of two hash sets that are filled from lists. -/
theorem ofSets_ofList (as bs : List α) :
    ofSets (Std.HashSet.ofList as) (Std.HashSet.ofList bs)
      = ⟨(as.toFinset ∩ bs.toFinset).card, (as.toFinset ∪ bs.toFinset).card⟩ := by
  rw [ofSets_eq, toFinset_toList_ofList, toFinset_toList_ofList]

end Sets

/-! ## Means -/

/-- **The rational score** of an overlap; nothing out of nothing is zero. -/
theorem score_eq (o : Overlap) : (o.score : ℚ) = o.shared / o.total := by
  rw [score]
  split
  · next hzero => rw [hzero, Nat.cast_zero, div_zero]; rfl
  · rfl

theorem foldl_add_score (overlaps : List Overlap) (start : ℚ) :
    overlaps.foldl (fun sum o => Scoring.add sum o.score) start
      = start + (overlaps.map score).sum := by
  induction overlaps generalizing start with
  | nil => exact (add_zero start).symm
  | cons o overlaps ih =>
    rw [List.foldl_cons, ih, List.map_cons, List.sum_cons, ← add_assoc]
    rfl

/-- **The mean is the sum of the scores out of their number.** -/
theorem mean_eq (overlaps : List Overlap) :
    (mean overlaps : ℚ) = (overlaps.map score).sum / overlaps.length := by
  rw [mean]
  split
  · next hnone =>
    rw [List.isEmpty_iff.mp hnone, List.length_nil, Nat.cast_zero, div_zero]
    rfl
  · rw [foldl_add_score]
    exact congrArg (· / (overlaps.length : ℚ)) (zero_add _)

theorem less_eq_false_iff {a b : ℚ} : Scoring.less a b = false ↔ b ≤ a :=
  decide_eq_false_iff_not.trans not_lt

end Overlap

end CodeClones
