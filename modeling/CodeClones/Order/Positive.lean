/-!
# Order/Positive — counts of at least one

Sizes, counts of workers and batch sizes are asked for as any natural number.  Where none at all
would make no sense, zero is taken for one.
-/

namespace CodeClones.Order

/-- **At least one** — zero becomes one, every other count stays. -/
def atLeastOne (count : Nat) : Nat :=
  Nat.max 1 count

theorem atLeastOne_pos (count : Nat) : 0 < atLeastOne count :=
  Nat.le_max_left 1 count

theorem atLeastOne_of_pos {count : Nat} (h : 0 < count) : atLeastOne count = count :=
  Nat.max_eq_right h

theorem atLeastOne_mono {count bound : Nat} (h : count ≤ bound) :
    atLeastOne count ≤ atLeastOne bound :=
  Nat.max_le.mpr ⟨atLeastOne_pos bound, Nat.le_trans h (Nat.le_max_right 1 bound)⟩

end CodeClones.Order
