import CodeClones.Sketch.Signature
import Mathlib

/-!
# Proofs/Sketch/Coefficients — the hash functions that are drawn

Whatever the seed, a scale is at least one and both coefficients have 31 bits (`Drawn`).  So the
product and the sum stay within 64 bits (`toNat_apply`), and as the modulus is prime and larger than
any scale, such a function tells residues apart (`apply_inj`).
-/

namespace CodeClones

namespace Coefficients

/-- **The modulus is prime** — three is a primitive root. -/
theorem prime_prime : Nat.Prime prime.toNat := by
  have hproduct : [2, 3, 3, 5, 131, 364289].prod = 4294967311 - 1 := by norm_num
  have hprimes : ∀ r ∈ [2, 3, 3, 5, 131, 364289], r.Prime := by norm_num
  have hpowers : ∀ r ∈ [2, 3, 3, 5, 131, 364289],
      (3 : ZMod 4294967311) ^ ((4294967311 - 1) / r) ≠ 1 := by
    simp only [List.forall_mem_cons, Nat.reduceSub, Nat.reduceDiv]
    reduce_mod_char
    simp only [List.not_mem_nil, false_implies, implies_true]
    decide
  refine lucas_primality 4294967311 3 (by reduce_mod_char) fun q hq hdvd => ?_
  obtain ⟨r, hr, hqr⟩ := hq.prime.dvd_prod_iff.mp (hproduct ▸ hdvd)
  rw [(Nat.prime_dvd_prime_iff_eq hq (hprimes r hr)).mp hqr]
  exact hpowers r hr

/-- **Coefficients as they are drawn** — a positive scale, and 31 bits each. -/
structure Drawn (c : Coefficients) : Prop where
  one_le_scale : 1 ≤ c.scale.toNat
  scale_lt : c.scale.toNat < 2 ^ 31
  shift_lt : c.shift.toNat < 2 ^ 31

theorem toNat_shiftRight_lt (word : UInt64) : (word >>> 33).toNat < 2 ^ 31 := by
  have hlt := word.toNat_lt
  rw [UInt64.toNat_shiftRight, Nat.shiftRight_eq_div_pow]
  change word.toNat / 2 ^ 33 < 2 ^ 31
  omega

theorem drawn_ofDraws (a b : UInt64) : Drawn (ofDraws a b) where
  one_le_scale := by
    change 1 ≤ ((a >>> 33) ||| 1).toNat
    rw [UInt64.toNat_or]
    exact Nat.right_le_or
  scale_lt := by
    change ((a >>> 33) ||| 1).toNat < 2 ^ 31
    rw [UInt64.toNat_or]
    exact Nat.or_lt_two_pow (toNat_shiftRight_lt a) (by decide)
  shift_lt := toNat_shiftRight_lt b

/-- **All coefficients of a seed are drawn so.** -/
theorem drawn_of_mem_ofSeed {count : Nat} {seed : UInt64} {c : Coefficients}
    (hc : c ∈ ofSeed count seed) : Drawn c := by
  rw [ofSeed] at hc
  induction count generalizing seed with
  | zero => exact absurd hc List.not_mem_nil
  | succ count ih =>
    rw [Nat.mul_succ, Hash.draws, Hash.draws, ofPairs] at hc
    rcases List.mem_cons.mp hc with rfl | hc
    · exact drawn_ofDraws _ _
    · exact ih hc

variable {c : Coefficients} {x y : UInt64}

/-- The exact value before it is reduced. -/
theorem Drawn.exact_lt (h : Drawn c) (hx : x < prime) :
    c.scale.toNat * x.toNat + c.shift.toNat < 2 ^ 64 := by
  have hx : x.toNat < 4294967311 := UInt64.lt_iff_toNat_lt.mp hx
  have hproduct : c.scale.toNat * x.toNat ≤ (2 ^ 31 - 1) * 4294967310 :=
    Nat.mul_le_mul (Nat.le_pred_of_lt h.scale_lt) (Nat.le_pred_of_lt hx)
  have hshift := h.shift_lt
  omega

/-- **Neither the product nor the sum wraps.** -/
theorem Drawn.toNat_apply (h : Drawn c) (hx : x < prime) :
    (c.apply x).toNat = (c.scale.toNat * x.toNat + c.shift.toNat) % prime.toNat := by
  have hexact := h.exact_lt hx
  have hproduct : (c.scale * x).toNat = c.scale.toNat * x.toNat := by
    rw [UInt64.toNat_mul]
    exact Nat.mod_eq_of_lt (Nat.lt_of_le_of_lt (Nat.le_add_right _ _) hexact)
  have hsum : (c.scale * x + c.shift).toNat = c.scale.toNat * x.toNat + c.shift.toNat := by
    rw [UInt64.toNat_add, hproduct]
    exact Nat.mod_eq_of_lt hexact
  rw [apply, UInt64.toNat_mod, hsum]

/-- **A drawn function tells residues apart** — its scale is not a multiple of the prime. -/
theorem Drawn.apply_inj (h : Drawn c) (hx : x < prime) (hy : y < prime) :
    c.apply x = c.apply y ↔ x = y := by
  refine ⟨fun heq => ?_, congrArg c.apply⟩
  have hcoprime : Nat.Coprime prime.toNat c.scale.toNat :=
    (Nat.Prime.coprime_iff_not_dvd prime_prime).mpr
      (Nat.not_dvd_of_pos_of_lt h.one_le_scale (Nat.lt_trans h.scale_lt (by decide)))
  have hsum : c.scale.toNat * x.toNat + c.shift.toNat
      ≡ c.scale.toNat * y.toNat + c.shift.toNat [MOD prime.toNat] := by
    rw [Nat.ModEq, ← h.toNat_apply hx, ← h.toNat_apply hy, heq]
  have hresidue : x.toNat ≡ y.toNat [MOD prime.toNat] :=
    (Nat.ModEq.add_right_cancel' _ hsum).cancel_left_of_coprime hcoprime
  exact UInt64.toNat_inj.mp (hresidue.eq_of_lt_of_lt (UInt64.lt_iff_toNat_lt.mp hx)
    (UInt64.lt_iff_toNat_lt.mp hy))

end Coefficients

end CodeClones
