import CodeClones.Index.Split
import Mathlib

/-!
# Proofs/Index/Split — the split that is chosen fits the signature

Whatever the errors are, and even if no comparison of them holds, every choice under consideration
has as many rows as fit into its bands (`Fits`).  So the chosen split asks for no more slots than
there are.
-/

namespace CodeClones.Split

/-- **A choice that fits** — at least one band, no more than there are slots, and as many rows as go
into each. -/
structure Fits (slots : Nat) (choice : Choice) : Prop where
  bands_pos : 0 < choice.bands
  bands_le : choice.bands ≤ slots
  rows_eq : choice.rows = slots / choice.bands

namespace Fits

variable {slots : Nat} {choice : Choice} (h : Fits slots choice)

include h

theorem rows_pos : 0 < choice.rows := by
  rw [h.rows_eq]
  exact Nat.div_pos h.bands_le h.bands_pos

theorem mul_le : choice.bands * choice.rows ≤ slots := by
  rw [h.rows_eq]
  exact Nat.mul_div_le slots choice.bands

/-- **One more choice considered.** -/
theorem consider (error : Nat → Nat → Float) {bands : Nat} (hpos : 0 < bands)
    (hle : bands ≤ slots) : Fits slots (choice.consider error slots bands) := by
  rw [Choice.consider]
  split
  · exact ⟨hpos, hle, rfl⟩
  · exact h

end Fits

/-- **The choice fits under every measure of error.** -/
theorem fits_bestBy (error : Nat → Nat → Float) {slots : Nat} (hslots : 0 < slots) :
    Fits slots (bestBy error slots) := by
  refine List.foldlRecOn (motive := Fits slots) _ _
    ⟨Nat.one_pos, hslots, (Nat.div_one slots).symm⟩ ?_
  intro choice hchoice bands hbands
  obtain ⟨hpos, hlt⟩ := List.mem_range'_1.mp hbands
  exact hchoice.consider error hpos (by omega)

theorem bestFor_of_pos {slots : Nat} (hslots : 0 < slots) (threshold : Float) :
    bestFor slots threshold
      = ((bestBy (error threshold) slots).bands, (bestBy (error threshold) slots).rows) :=
  if_neg (Nat.ne_of_gt hslots)

theorem required_ofCounts {bands rows : Nat} (hbands : 0 < bands) (hrows : 0 < rows) :
    (ofCounts bands rows).required = bands * rows :=
  congrArg₂ (· * ·) (Order.atLeastOne_of_pos hbands) (Order.atLeastOne_of_pos hrows)

/-- **A signature of so many slots is long enough** for the split chosen for it. -/
theorem required_bestFor_le {slots : Nat} (hslots : 0 < slots) (threshold : Float) :
    (ofCounts (bestFor slots threshold).1 (bestFor slots threshold).2).required ≤ slots := by
  have hfits := fits_bestBy (error threshold) hslots
  rw [bestFor_of_pos hslots, required_ofCounts hfits.bands_pos hfits.rows_pos]
  exact hfits.mul_le

end CodeClones.Split
