/-!
# Order/Boundary — where a predicate turns false

Binary search.  On a range whose initial part satisfies `holds` and whose remainder does not,
`boundary` finds the first position of the remainder.
-/

namespace CodeClones.Order

/-- **The first failure** among the `count` positions from `start`, provided that no position
after a failure satisfies `holds`; `start + count` if there is none. -/
def boundary (holds : Nat → Bool) (start count : Nat) : Nat :=
  if count = 0 then start
  else
    let half := count / 2
    if holds (start + half) then boundary holds (start + half + 1) (count - half - 1)
    else boundary holds start half
termination_by count

theorem le_boundary (holds : Nat → Bool) (start count : Nat) :
    start ≤ boundary holds start count := by
  fun_induction boundary holds start count with
  | case1 => exact Nat.le_refl _
  | case2 => omega
  | case3 => assumption

theorem boundary_le (holds : Nat → Bool) (start count : Nat) :
    boundary holds start count ≤ start + count := by
  fun_induction boundary holds start count with
  | case1 => omega
  | case2 => omega
  | case3 => omega

end CodeClones.Order
