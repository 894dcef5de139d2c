import CodeClones.Proofs.Decimal.Double

/-!
# Proofs/Similarity/Quotient — which scores are one

A count below `2 ^ 53` is a double of its own, so the quotient of a smaller count by a larger one
lies below the last double before one, and rounding does not reach one (`quotient_ne_one`).  Hence a
score is one only if everything is shared (`toFloat_eq_one_iff`).
-/

namespace CodeClones.Double

open Float.Model Float.Model.UnpackedFloat

/-- **Rounding does not pass a bound** that fits the mantissa. -/
theorem kept_le {m bound : Nat} (accuracy : Accuracy) (h : m < bound * 2 ^ (m.log2 - 52)) :
    kept m accuracy ≤ bound := by
  have hlt : m / 2 ^ (m.log2 - 52) < bound := (Nat.div_lt_iff_lt_mul (Nat.two_pow_pos _)).mpr h
  have hround := (le_roundToNearestEven
    (ExtendedMantissa.ofMantissaAndAccuracy m accuracy >>> (m.log2 - 52)).mantissa
    (ExtendedMantissa.ofMantissaAndAccuracy m accuracy >>> (m.log2 - 52)).accuracy).2
  rw [← ExtendedMantissa.roundedMantissa, ← kept, mantissa_shiftRight,
    mantissa_ofMantissaAndAccuracy] at hround
  omega

/-- A quotient of two mantissas of 53 bits is taken to 53 places. -/
theorem divCore_eq {m m' : Nat} {e e' : Int} (hlog : m.log2 = 52) (hlog' : m'.log2 = 52)
    (he : -1021 ≤ e - e') :
    divCore .binary64 m e m' e' = ((m <<< 53) / m', e - e' - 53,
      accuracyOfFraction ((m <<< 53) % m') m') := by
  have htarget : min (e - e') (Format.binary64.targetExponent
      (totalExponent m e - totalExponent m' e')) = e - e' - 53 := by
    rw [totalExponent, totalExponent, hlog, hlog']
    change min (e - e') (max (52 + 1 + e - (52 + 1 + e') - 53) (-1074)) = _
    omega
  have hshift : (e - e' - (e - e' - 53)).toNat = 53 := by omega
  rw [divCore, htarget, hshift]

/-- The quotient has 53 or 54 bits. -/
theorem log2_quotient {m m' : Nat} (hlog : m.log2 = 52) (hlog' : m'.log2 = 52) :
    52 ≤ ((m <<< 53) / m').log2 ∧ ((m <<< 53) / m').log2 ≤ 53 := by
  have hpos := pos_of_log2 hlog.ge
  have hpos' := pos_of_log2 hlog'.ge
  obtain ⟨hlow, hhigh⟩ := (Nat.log2_eq_iff (Nat.ne_of_gt hpos)).mp hlog
  obtain ⟨hlow', hhigh'⟩ := (Nat.log2_eq_iff (Nat.ne_of_gt hpos')).mp hlog'
  have hle : 2 ^ 52 ≤ (m <<< 53) / m' := by
    rw [Nat.le_div_iff_mul_le hpos', Nat.shiftLeft_eq]
    omega
  have hlt : (m <<< 53) / m' < 2 ^ 54 := by
    rw [Nat.div_lt_iff_lt_mul hpos', Nat.shiftLeft_eq]
    omega
  have hne : (m <<< 53) / m' ≠ 0 := by omega
  exact ⟨(Nat.le_log2 hne).mpr hle, Nat.lt_succ_iff.mp ((Nat.log2_lt hne).mpr hlt)⟩

/-- **The mantissa of a small count** is the count itself, shifted up to 53 bits. -/
theorem unpack_ofNat {n : Nat} (hpos : 0 < n) (hlt : n < 2 ^ 53) :
    (n <<< (52 - n.log2)).log2 = 52 ∧ ∃ hshift, (Float.ofNat n).toModel.unpack
      = .finite .positive (n <<< (52 - n.log2)) (-(52 - n.log2 : Nat)) hshift := by
  obtain ⟨hshift, heq⟩ := ofNat_eq_pack hpos hlt
  have hlog : n.log2 < 53 := (Nat.log2_lt (Nat.ne_of_gt hpos)).mpr hlt
  have hlong : (n <<< (52 - n.log2)).log2 = 52 := by
    rw [log2_shiftLeft hpos]
    omega
  rw [heq]
  exact ⟨hlong, hshift, unpack_pack ⟨_, _, hshift, rfl, hlong, by omega, by omega⟩⟩

section Rounded

variable {n m k l q : Nat}

/-- Without a carry the quotient is one only if the counts are equal: its leading bit says that
the larger count fits into the smaller one. -/
theorem exponent_ne_of_floor (hlt : n < m) (hq : q = (n <<< k <<< 53) / (m <<< l))
    (hlong : 52 ≤ q.log2) : l + (q.log2 - 52) ≠ k + 1 := by
  intro hexponent
  have hlead : 2 ^ q.log2 * (m <<< l) ≤ n <<< k <<< 53 :=
    (Nat.mul_le_mul_right _ (Nat.log2_self_le (Nat.ne_of_gt (pos_of_log2 hlong)))).trans
      (hq ▸ Nat.div_mul_le_self _ _)
  have hpower : q.log2 + l = k + 53 := by omega
  have hle : m * 2 ^ (k + 53) ≤ n * 2 ^ (k + 53) := by
    calc m * 2 ^ (k + 53) = 2 ^ q.log2 * (m <<< l) := by
          rw [Nat.shiftLeft_eq, ← hpower, Nat.pow_add]
          ring
      _ ≤ n <<< k <<< 53 := hlead
      _ = n * 2 ^ (k + 53) := by rw [← Nat.shiftLeft_add, Nat.shiftLeft_eq]
  exact absurd (Nat.le_of_mul_le_mul_right hle (Nat.two_pow_pos _)) (Nat.not_le.mpr hlt)

/-- With a carry it would have to lie above the last double below one, and it does not: the counts
differ by one at least, and the larger one is below `2 ^ 53`. -/
theorem kept_lt_of_floor (accuracy : Accuracy) (hlt : n < m) (hm : m < 2 ^ 53)
    (hq : q = (n <<< k <<< 53) / (m <<< l)) (hexponent : l + (q.log2 - 52) = k) :
    kept q accuracy < 2 ^ 53 := by
  have hgap : n * 2 ^ 53 < (2 ^ 53 - 1) * m := by omega
  have hbelow : q < (2 ^ 53 - 1) * 2 ^ (q.log2 - 52) := by
    have hpos : 0 < m <<< l := by
      rw [Nat.shiftLeft_eq]
      exact Nat.mul_pos (by omega) (Nat.two_pow_pos l)
    conv_lhs => rw [hq]
    rw [Nat.div_lt_iff_lt_mul hpos]
    calc n <<< k <<< 53 = n * 2 ^ 53 * 2 ^ k := by
          rw [Nat.shiftLeft_eq, Nat.shiftLeft_eq]
          ring
      _ < (2 ^ 53 - 1) * m * 2 ^ k := Nat.mul_lt_mul_of_pos_right hgap (Nat.two_pow_pos k)
      _ = (2 ^ 53 - 1) * 2 ^ (q.log2 - 52) * (m <<< l) := by
          rw [Nat.shiftLeft_eq, ← hexponent, Nat.pow_add]
          ring
  exact Nat.lt_of_le_of_lt (kept_le accuracy hbelow) (by decide)

end Rounded

/-- **A quotient of small counts, unpacked** — the mantissas are divided to 53 places, and what
rounding keeps of that is shifted back to 53 bits. -/
theorem unpack_quotient {n m k l q : Nat} (hpos : 0 < n) (hn : n < 2 ^ 53) (hpos' : 0 < m)
    (hm : m < 2 ^ 53) (hk : 52 - n.log2 = k) (hl : 52 - m.log2 = l)
    (hq : q = (n <<< k <<< 53) / (m <<< l)) :
    (52 ≤ q.log2 ∧ q.log2 ≤ 53) ∧ ∃ accuracy hrounded,
      (Float.ofNat n / Float.ofNat m).toModel.unpack = .finite .positive
        (kept q accuracy / 2 ^ ((kept q accuracy).log2 - 52))
        (-(k : Int) - -(l : Int) - 53 + (q.log2 - 52 : Nat)
          + ((kept q accuracy).log2 - 52 : Nat)) hrounded := by
  obtain ⟨hlog, hshift, heq⟩ := unpack_ofNat hpos hn
  obtain ⟨hlog', hshift', heq'⟩ := unpack_ofNat hpos' hm
  rw [hk] at hlog
  rw [hl] at hlog'
  have hlong := hq ▸ log2_quotient hlog hlog'
  obtain ⟨hrounded, hround⟩ := roundWithAccuracy_eq .positive (e := -(k : Int) - -(l : Int) - 53)
    (accuracyOfFraction ((n <<< k <<< 53) % (m <<< l)) (m <<< l)) hlong.1 (by omega)
  have hsign : Sign.positive / Sign.positive = Sign.positive := rfl
  have hdiv : UnpackedFloat.div .binary64 (Float.ofNat n).toModel.unpack
      (Float.ofNat m).toModel.unpack = roundWithAccuracy .binary64
        .positive q (-(k : Int) - -(l : Int) - 53)
        (accuracyOfFraction ((n <<< k <<< 53) % (m <<< l)) (m <<< l)) := by
    simp only [heq, heq', hk, hl, UnpackedFloat.div]
    rw [divCore_eq hlog hlog' (by omega), ← hq, hsign]
  refine ⟨hlong, _, hrounded, ?_⟩
  change (pack (UnpackedFloat.div .binary64 (Float.ofNat n).toModel.unpack
    (Float.ofNat m).toModel.unpack)).unpack = _
  rw [hdiv, unpack_pack ((normal_roundWithAccuracy .positive _ hlong.1 (by omega)).mono (by omega)
    (by omega)), hround]

/-- **A smaller count over a larger one is not one**, rounding included. -/
theorem quotient_ne_one {n m : Nat} (hpos : 0 < n) (hlt : n < m) (hm : m < 2 ^ 53) :
    Float.ofNat n / Float.ofNat m ≠ 1 := by
  intro hone
  obtain ⟨⟨hlow, hhigh⟩, accuracy, hrounded, hunpack⟩ :=
    unpack_quotient hpos (hlt.trans hm) (hpos.trans hlt) hm rfl rfl rfl
  have hunit : (1 : Float).toModel.unpack = .finite .positive (2 ^ 52) (-52) (Nat.two_pow_pos 52) :=
    rfl
  rw [hone, hunit] at hunpack
  injection hunpack with _ _ hexponent
  obtain ⟨hkept, hcarry⟩ := log2_kept accuracy hlow
  have hlead := Nat.log2_self_le (Nat.ne_of_gt (pos_of_log2 hkept))
  rcases Nat.eq_or_lt_of_le hkept with hfloor | hfloor
  · exact exponent_ne_of_floor (k := 52 - n.log2) (l := 52 - m.log2) hlt rfl hlow (by omega)
  · have hbelow := kept_lt_of_floor (k := 52 - n.log2) (l := 52 - m.log2) accuracy hlt hm rfl
      (by omega)
    have hroom := Nat.pow_le_pow_right Nat.two_pos hfloor
    omega

/-- **A score is one only if everything is shared.** -/
theorem toFloat_eq_one_iff {overlap : Overlap} (hle : overlap.shared ≤ overlap.total)
    (htotal : overlap.total < 2 ^ 53) :
    overlap.toFloat = 1 ↔ 0 < overlap.total ∧ overlap.shared = overlap.total := by
  obtain ⟨shared, total⟩ := overlap
  dsimp only at hle htotal ⊢
  constructor
  · intro hone
    rcases Nat.eq_zero_or_pos shared with rfl | hshared
    · rw [toFloat_none] at hone
      exact absurd hone (by decide)
    · have hpos := Nat.lt_of_lt_of_le hshared hle
      refine ⟨hpos, Nat.le_antisymm hle (Nat.not_lt.mp fun hlt => ?_)⟩
      rw [Overlap.toFloat, Overlap.score, if_neg (Nat.ne_of_gt hpos)] at hone
      exact quotient_ne_one hshared hlt htotal hone
  · rintro ⟨hpos, rfl⟩
    exact toFloat_full hpos (htotal.trans (by decide))

end CodeClones.Double
