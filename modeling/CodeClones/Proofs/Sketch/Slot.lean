import CodeClones.Sketch.Signature
import Mathlib

/-!
# Proofs/Sketch/Slot — a signature is a minimum for each function

A slot is the greatest lower bound of the values of its function (`le_slot_iff`), so joining two
lists of hashes takes the minimum slot by slot, and only the set of hashes matters
(`sketch_of_union`).  Taking the hashes one by one and lowering all slots in place gives the same
slots (`foldl_lowered`).
-/

namespace CodeClones

/-- Words with the same lower bounds are equal. -/
theorem word_eq_of_forall_le_iff {a b : UInt64} (h : ∀ x, x ≤ a ↔ x ≤ b) : a = b :=
  UInt64.le_antisymm ((h a).mp (UInt64.le_refl a)) ((h b).mpr (UInt64.le_refl b))

theorem Signature.le_emptySlot (x : UInt64) : x ≤ emptySlot :=
  UInt64.le_iff_toNat_le.mpr (Nat.le_of_lt_succ x.toNat_lt)

namespace Sketcher

open Signature

variable {c : Coefficients} {xs ys residues : List UInt64}

/-! ## One slot -/

theorem le_lower_iff {x least residue : UInt64} :
    x ≤ lower c least residue ↔ x ≤ least ∧ x ≤ c.apply residue := by
  rw [lower]
  split
  · next hlt => exact ⟨fun h => ⟨UInt64.le_trans h (UInt64.le_of_lt hlt), h⟩, And.right⟩
  · next hge => exact ⟨fun h => ⟨h, UInt64.le_trans h (UInt64.not_lt.mp hge)⟩, And.left⟩

theorem le_foldl_lower_iff {x least : UInt64} :
    x ≤ residues.foldl (lower c) least ↔ x ≤ least ∧ ∀ residue ∈ residues, x ≤ c.apply residue := by
  induction residues generalizing least with
  | nil => simp
  | cons residue residues ih =>
    rw [List.foldl_cons, ih, le_lower_iff, List.forall_mem_cons, and_assoc]

/-- **A slot is the greatest lower bound of the values of its function.** -/
theorem le_slot_iff {x : UInt64} :
    x ≤ slot residues c ↔ ∀ residue ∈ residues, x ≤ c.apply residue := by
  rw [slot, le_foldl_lower_iff, and_iff_right (le_emptySlot x)]

theorem slot_le {residue : UInt64} (h : residue ∈ residues) : slot residues c ≤ c.apply residue :=
  le_slot_iff.mp (UInt64.le_refl _) residue h

/-- **Joining lists takes the minimum.** -/
theorem slot_append : slot (xs ++ ys) c = min (slot xs c) (slot ys c) :=
  word_eq_of_forall_le_iff fun x => by
    rw [Std.le_min_iff, le_slot_iff, le_slot_iff, le_slot_iff, List.forall_mem_append]

/-- **More residues never raise a slot.** -/
theorem slot_anti (h : xs ⊆ ys) : slot ys c ≤ slot xs c :=
  le_slot_iff.mpr fun _ hresidue => slot_le (h hresidue)

theorem slot_congr (h : ∀ residue, residue ∈ xs ↔ residue ∈ ys) : slot xs c = slot ys c :=
  UInt64.le_antisymm (slot_anti fun residue => (h residue).mpr)
    (slot_anti fun residue => (h residue).mp)

/-! ## All slots -/

/-- Joining lists of hashes takes the minimum slot by slot. -/
theorem slots_append (sketcher : Sketcher) (xs ys : List UInt64) (id : DocumentId) :
    (sketcher.sketch (xs ++ ys) id).slots
      = Array.zipWith min (sketcher.sketch xs id).slots (sketcher.sketch ys id).slots := by
  rw [← Array.toList_inj, Array.toList_zipWith]
  change sketcher.coefficients.map (slot ((xs ++ ys).map residue))
    = (sketcher.coefficients.map (slot (xs.map residue))).zipWith min
      (sketcher.coefficients.map (slot (ys.map residue)))
  rw [List.zipWith_map, List.zipWith_self, List.map_append]
  exact List.map_congr_left fun c _ => slot_append

/-- **More hashes never raise a slot.** -/
theorem slots_anti (sketcher : Sketcher) (id : DocumentId) (h : xs ⊆ ys) :
    List.Forall₂ (· ≤ ·) (sketcher.sketch ys id).slots.toList
      (sketcher.sketch xs id).slots.toList := by
  change List.Forall₂ (· ≤ ·) (sketcher.coefficients.map (slot (ys.map residue)))
    (sketcher.coefficients.map (slot (xs.map residue)))
  rw [List.forall₂_map_left_iff, List.forall₂_map_right_iff, List.forall₂_same]
  exact fun c _ => slot_anti (List.map_subset residue h)

/-- **A signature depends on the set of hashes alone.** -/
theorem sketch_congr (sketcher : Sketcher) (id : DocumentId) (h : ∀ hash, hash ∈ xs ↔ hash ∈ ys) :
    sketcher.sketch xs id = sketcher.sketch ys id := by
  have hresidues : ∀ r, r ∈ xs.map residue ↔ r ∈ ys.map residue := fun r => by
    simp only [List.mem_map, h]
  rw [sketch, sketch, List.map_congr_left fun c _ => slot_congr hresidues]

/-! ## Lowering in place -/

/-- **One hash lowers all slots** — each to the value of its function, if that is less. -/
def lowered (sketcher : Sketcher) (slots : List UInt64) (hash : UInt64) : List UInt64 :=
  slots.zipWith (fun least c => lower c least (residue hash)) sketcher.coefficients

theorem foldl_lowered_map (sketcher : Sketcher) (hashes : List UInt64)
    (start : Coefficients → UInt64) :
    hashes.foldl sketcher.lowered (sketcher.coefficients.map start)
      = sketcher.coefficients.map fun c => (hashes.map residue).foldl (lower c) (start c) := by
  induction hashes generalizing start with
  | nil => rfl
  | cons hash hashes ih =>
    have hstep : sketcher.lowered (sketcher.coefficients.map start) hash
        = sketcher.coefficients.map fun c => lower c (start c) (residue hash) := by
      rw [lowered, List.zipWith_map_left, List.zipWith_self]
    rw [List.foldl_cons, hstep, ih]
    rfl

/-- **Hash by hash, in place** — from empty slots, the hashes leave the slots of the signature. -/
theorem foldl_lowered (sketcher : Sketcher) (hashes : List UInt64) (id : DocumentId) :
    hashes.foldl sketcher.lowered (List.replicate sketcher.coefficients.length emptySlot)
      = (sketcher.sketch hashes id).slots.toList := by
  have hempty : List.replicate sketcher.coefficients.length emptySlot
      = sketcher.coefficients.map fun _ => emptySlot := List.map_const'.symm
  rw [hempty, foldl_lowered_map]
  rfl

/-! ## Signatures of sets -/

/-- **A signature is that of the set of its hashes.**  Joining two lists takes the minimum slot by
slot, and nothing gives empty slots; hash by hash, all slots are lowered in place.  Hashes added
never raise a slot.  Lists with the same members, in any order and with any repetition, have the
same signature, and so has a hash set, in whatever order it is gone through. -/
theorem sketch_of_union (sketcher : Sketcher) (xs ys : List UInt64) (id : DocumentId) :
    (sketcher.sketch (xs ++ ys) id).slots
        = Array.zipWith min (sketcher.sketch xs id).slots (sketcher.sketch ys id).slots
      ∧ (sketcher.sketch [] id).slots
        = Array.replicate sketcher.coefficients.length emptySlot
      ∧ xs.foldl sketcher.lowered (List.replicate sketcher.coefficients.length emptySlot)
        = (sketcher.sketch xs id).slots.toList
      ∧ (xs ⊆ ys → List.Forall₂ (· ≤ ·) (sketcher.sketch ys id).slots.toList
        (sketcher.sketch xs id).slots.toList)
      ∧ ((∀ hash, hash ∈ xs ↔ hash ∈ ys) → sketcher.sketch xs id = sketcher.sketch ys id)
      ∧ ∀ set : Std.HashSet UInt64, (∀ hash, hash ∈ xs ↔ hash ∈ set) →
        sketcher.sketchSet set id = sketcher.sketch xs id := by
  refine ⟨slots_append sketcher xs ys id, ?_, foldl_lowered sketcher xs id, slots_anti sketcher id,
    sketch_congr sketcher id, fun set hset => sketch_congr sketcher id fun hash => ?_⟩
  · rw [← Array.toList_inj, Array.toList_replicate]
    exact (foldl_lowered sketcher [] id).symm
  · rw [Std.HashSet.mem_toList, hset]

/-- Two hashes, one of them repeated, against the same two in another order and as a hash set. -/
theorem sketch_of_union_of_repeated :
    let sketcher := ofSeed 4 42
    let xs : List UInt64 := [5, 9, 5]
    let ys : List UInt64 := [9, 5]
    let set := Std.HashSet.ofList ys
    xs ⊆ ys ∧ (∀ hash, hash ∈ xs ↔ hash ∈ ys) ∧ (∀ hash, hash ∈ xs ↔ hash ∈ set)
      ∧ List.Forall₂ (· ≤ ·) (sketcher.sketch ys 1).slots.toList (sketcher.sketch xs 1).slots.toList
      ∧ sketcher.sketch xs 1 = sketcher.sketch ys 1
      ∧ sketcher.sketchSet set 1 = sketcher.sketch xs 1 := by
  intro sketcher xs ys set
  have hsubset : xs ⊆ ys := by decide
  have hsame : ∀ hash, hash ∈ xs ↔ hash ∈ ys := fun hash =>
    ⟨fun h => hsubset h, fun h => List.cons_subset.mpr ⟨by decide, by decide⟩ h⟩
  have hset : ∀ hash, hash ∈ xs ↔ hash ∈ set := fun hash => by
    rw [hsame, Std.HashSet.mem_ofList, List.contains_iff_mem]
  obtain ⟨-, -, -, hanti, hcongr, hsets⟩ := sketch_of_union sketcher xs ys 1
  exact ⟨hsubset, hsame, hset, hanti hsubset, hcongr hsame, hsets set hset⟩

end Sketcher

end CodeClones
