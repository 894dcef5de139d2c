import CodeClones.Proofs.Sketch.Slot

/-!
# Proofs/Sketch/Weighted — signatures of weighted sets

An element enters a weighted signature as a few variants, at most ten, and a variant of one element
may also be a variant of another.  Only the set of all variants matters, and `mem_expansion_iff`
says which hashes are in it; so weights above ten are all the same, heavier sets have smaller slots,
and the order in which the elements come does not show (`sketchWeighted_anti`).
-/

namespace CodeClones.Sketcher

open Signature

variable {weights lighter heavier : Std.HashMap UInt64 Nat} {hash key : UInt64}

/-! ## Variants -/

theorem mem_variants_iff {weight : Nat} : hash ∈ variants key weight
    ↔ ∃ copy < min weight maxWeight, hash = key + .ofNat copy * variantStep := by
  rw [variants, List.mem_map]
  refine exists_congr fun copy => ?_
  rw [List.mem_range, eq_comm]

/-- The variants of some weighted elements. -/
def expansion (entries : List (UInt64 × Nat)) : List UInt64 :=
  entries.flatMap fun entry => variants entry.1 entry.2

/-- **Which hashes are variants** — an element that is not there has none. -/
theorem mem_expansion_iff : hash ∈ expansion weights.toList
    ↔ ∃ key, ∃ copy < min (weights.getD key 0) maxWeight,
        hash = key + .ofNat copy * variantStep := by
  simp only [expansion, List.mem_flatMap, mem_variants_iff, Prod.exists]
  refine exists_congr fun key => ?_
  simp only [Std.HashMap.mem_toList_iff_getElem?_eq_some, Std.HashMap.getD_eq_getD_getElem?]
  cases weights[key]? with
  | none => simp
  | some weight => simp

/-- Heavier elements have more variants. -/
theorem expansion_subset
    (h : ∀ key, min (lighter.getD key 0) maxWeight ≤ min (heavier.getD key 0) maxWeight) :
    expansion lighter.toList ⊆ expansion heavier.toList := fun hash hmem => by
  obtain ⟨key, copy, hcopy, heq⟩ := mem_expansion_iff.mp hmem
  exact mem_expansion_iff.mpr ⟨key, copy, hcopy.trans_le (h key), heq⟩

/-! ## Signatures -/

/-- **Heavier sets have smaller slots, and weights count up to ten.**

If no element of one set weighs more than in another, up to ten, no slot of the other's signature is
larger; if all weigh the same up to ten the slots are equal.  The slots are those that the variants
leave when they are put in one by one, in whatever order the elements come. -/
theorem sketchWeighted_anti (sketcher : Sketcher) (lighter heavier : Std.HashMap UInt64 Nat)
    (id id' : DocumentId) :
    ((∀ key, min (lighter.getD key 0) 10 ≤ min (heavier.getD key 0) 10) →
      List.Forall₂ (· ≤ ·) (sketcher.sketchWeighted heavier id').slots.toList
        (sketcher.sketchWeighted lighter id).slots.toList)
      ∧ ((∀ key, min (lighter.getD key 0) 10 = min (heavier.getD key 0) 10) →
        (sketcher.sketchWeighted lighter id).slots = (sketcher.sketchWeighted heavier id').slots)
      ∧ ∀ entries, entries.Perm heavier.toList →
        (expansion entries).foldl sketcher.lowered
            (List.replicate sketcher.coefficients.length emptySlot)
          = (sketcher.sketchWeighted heavier id').slots.toList := by
  refine ⟨fun hle => slots_anti sketcher id (expansion_subset hle), fun heq => ?_,
    fun entries hperm => ?_⟩
  · have hsame : ∀ hash, hash ∈ expansion lighter.toList ↔ hash ∈ expansion heavier.toList :=
      fun hash => ⟨fun h => expansion_subset (fun key => (heq key).le) h,
        fun h => expansion_subset (fun key => (heq key).ge) h⟩
    have hslots := congrArg slots (sketch_congr sketcher id hsame)
    exact hslots
  · have hsame : ∀ hash, hash ∈ expansion entries ↔ hash ∈ expansion heavier.toList :=
      fun hash => (hperm.flatMap_right _).mem_iff
    rw [foldl_lowered sketcher (expansion entries) id', sketch_congr sketcher id' hsame]
    rfl

/-- Two elements of which the second is a variant of the first. -/
theorem sketchWeighted_anti_of_colliding :
    let sketcher := ofSeed 4 42
    let weighing := fun weight : Nat =>
      ((∅ : Std.HashMap UInt64 Nat).insert 5 weight).insert (5 + variantStep) 1
    5 + variantStep ∈ variants 5 2
      ∧ List.Forall₂ (· ≤ ·) (sketcher.sketchWeighted (weighing 10) 1).slots.toList
        (sketcher.sketchWeighted (weighing 2) 0).slots.toList
      ∧ (sketcher.sketchWeighted (weighing 10) 0).slots
        = (sketcher.sketchWeighted (weighing 500) 1).slots
      ∧ (expansion (weighing 500).toList.reverse).foldl sketcher.lowered
          (List.replicate sketcher.coefficients.length emptySlot)
        = (sketcher.sketchWeighted (weighing 500) 1).slots.toList := by
  intro sketcher weighing
  have hweight : ∀ weight key, (weighing weight).getD key 0
      = if 5 + variantStep = key then 1 else if 5 = key then weight else 0 := fun weight key => by
    simp only [weighing, Std.HashMap.getD_insert, Std.HashMap.getD_empty, beq_iff_eq]
  obtain ⟨hanti, -⟩ := sketchWeighted_anti sketcher (weighing 2) (weighing 10) 0 1
  obtain ⟨-, hsame, horder⟩ := sketchWeighted_anti sketcher (weighing 10) (weighing 500) 0 1
  refine ⟨mem_variants_iff.mpr ⟨1, by decide, by decide⟩, hanti fun key => ?_, hsame fun key => ?_,
    horder _ (List.reverse_perm _)⟩
  · rw [hweight, hweight]
    split_ifs <;> decide
  · rw [hweight, hweight]
    split_ifs <;> decide

end CodeClones.Sketcher
