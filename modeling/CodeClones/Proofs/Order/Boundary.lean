import CodeClones.Order.Boundary
import Mathlib

/-!
# Proofs/Order/Boundary — binary search finds the first failure

If a predicate holds on an initial part of a range and fails on the rest, `boundary` separates the
two parts.
-/

namespace CodeClones.Order

/-- **The two parts** — what lies before the boundary satisfies the predicate, what lies behind it
does not. -/
theorem boundary_spec {holds : Nat → Bool} {start count : Nat}
    (hmono : ∀ k l, start ≤ k → k ≤ l → l < start + count → holds l = true → holds k = true) :
    (∀ k, start ≤ k → k < boundary holds start count → holds k = true)
      ∧ ∀ k, boundary holds start count ≤ k → k < start + count → holds k = false := by
  fun_induction boundary holds start count with
  | case1 start => exact ⟨fun k _ _ => by omega, fun k _ _ => by omega⟩
  | case2 start count _ half hhalf ih =>
    obtain ⟨hbefore, hbehind⟩ := ih fun k l hk hkl hl =>
      hmono k l (by omega) hkl (by omega)
    refine ⟨fun k hk hlt => ?_, fun k hle hlt => hbehind k hle (by omega)⟩
    rcases Nat.lt_or_ge k (start + half + 1) with hleft | hright
    · exact hmono k (start + half) hk (by omega) (by omega) hhalf
    · exact hbefore k hright hlt
  | case3 start count _ half hhalf ih =>
    obtain ⟨hbefore, hbehind⟩ := ih fun k l hk hkl hl =>
      hmono k l hk hkl (by omega)
    refine ⟨hbefore, fun k hle hlt => ?_⟩
    rcases Nat.lt_or_ge k (start + half) with hleft | hright
    · exact hbehind k hle hleft
    · -- a success behind the middle would make the middle succeed
      rw [← Bool.not_eq_true]
      exact fun hk => hhalf (hmono (start + half) k (by omega) hright hlt hk)

/-- What satisfies the predicate lies before the boundary. -/
theorem lt_boundary_iff {holds : Nat → Bool} {start count k : Nat}
    (hmono : ∀ k l, start ≤ k → k ≤ l → l < start + count → holds l = true → holds k = true)
    (hstart : start ≤ k) (hcount : k < start + count) :
    k < boundary holds start count ↔ holds k = true := by
  obtain ⟨hbefore, hbehind⟩ := boundary_spec hmono
  refine ⟨hbefore k hstart, fun hk => Nat.lt_of_not_le fun hle => ?_⟩
  exact Bool.false_ne_true ((hbehind k hle hcount).symm.trans hk)

/-- **The place of a change** — a place where the predicate holds before and fails from there on is
the boundary. -/
theorem boundary_eq {holds : Nat → Bool} {start count place : Nat} (hstart : start ≤ place)
    (hcount : place ≤ start + count) (hbefore : ∀ k, start ≤ k → k < place → holds k = true)
    (hbehind : ∀ k, place ≤ k → k < start + count → holds k = false) :
    boundary holds start count = place := by
  obtain ⟨hleft, hright⟩ := @boundary_spec holds start count
    fun k l hk hkl hl hholds => by
      rcases Nat.lt_or_ge l place with hlt | hge
      · exact hbefore k hk (Nat.lt_of_le_of_lt hkl hlt)
      · exact absurd hholds (by rw [hbehind l hge hl]; exact Bool.false_ne_true)
  have hle := boundary_le holds start count
  have hge := le_boundary holds start count
  rcases Nat.lt_trichotomy (boundary holds start count) place with hlt | heq | hgt
  · exact absurd ((hbefore _ hge hlt).symm.trans (hright _ (Nat.le_refl _) (by omega))) (by simp)
  · exact heq
  · exact absurd ((hleft _ hstart hgt).symm.trans (hbehind _ (Nat.le_refl _) (by omega))) (by simp)

end CodeClones.Order
