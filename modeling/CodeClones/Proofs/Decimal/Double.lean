import CodeClones.Decimal.Double
import CodeClones.Proofs.Similarity.Double

/-!
# Proofs/Decimal/Double — a count handed out as a double is read back

A count of at most 53 bits fits the mantissa of a double, so the double is the count itself:
rounding shifts out nothing but zeros (`roundWithAccuracy_shiftLeft`), packing keeps the bits
(`ofFloat_pack`) and truncating shifts the zeros away again (`truncate_ofNat`).  A 32-bit word that
is handed out as a number therefore comes back as the same word (`unsigned32_ofNat`).
-/

namespace CodeClones.Double

open Float.Model Float.Model.UnpackedFloat

/-- Zeros that are shifted out leave no trace. -/
theorem shiftRight_shiftLeft (m k : Nat) :
    ExtendedMantissa.ofMantissaAndAccuracy (m <<< k) .exact >>> k
      = ExtendedMantissa.ofMantissaAndAccuracy m .exact := by
  induction k generalizing m with
  | zero => rfl
  | succ k ih =>
    change (ExtendedMantissa.ofMantissaAndAccuracy (m <<< (k + 1)) .exact >>> k).shiftRightOne = _
    rw [Nat.shiftLeft_succ_inside, ih, ExtendedMantissa.shiftRightOne]
    change ExtendedMantissa.mk (2 * m / 2) (2 * m % 2 != 0) false
      = ExtendedMantissa.mk m false false
    rw [Nat.mul_div_cancel_left _ Nat.two_pos, Nat.mul_mod_right]
    rfl

/-- **Rounding what needs no rounding** — 53 bits followed by zeros. -/
theorem roundWithAccuracy_shiftLeft (sign : Sign) {m : Nat} {e : Int} (k : Nat) (hpos : 0 < m)
    (hlog : m.log2 = 52) (he : -1074 ≤ e) :
    roundWithAccuracy .binary64 sign (m <<< k) e .exact = .finite sign m (e + k) hpos := by
  have hlong : (m <<< k).log2 = 52 + k := by rw [log2_shiftLeft hpos, hlog]
  have hkept : (ExtendedMantissa.ofMantissaAndAccuracy m .exact).roundedMantissa = m := rfl
  rw [roundWithAccuracy, shiftToTargetExponent_eq .exact (by omega) he, hlong,
    Nat.add_sub_cancel_left, shiftRight_shiftLeft]
  dsimp only
  rw [hkept, shiftToTargetExponent_eq .exact (by omega) (by omega), hlog]
  dsimp only
  split
  · next hzero => exact absurd hzero (Nat.ne_of_gt hpos)
  · exact congrArg (UnpackedFloat.finite sign m · hpos) (Int.add_zero _)

/-- The bits of a positive normal number. -/
theorem toBits_pack {m : Nat} {e : Int} (hpos : 0 < m) (hlog : m.log2 = 52) (hlow : -1074 ≤ e)
    (hhigh : e ≤ 971) :
    (Float.ofModel (pack (.finite .positive m e hpos))).toBits.toNat
      = (e + 1075).toNat * Exact.hiddenBit + m % Exact.hiddenBit := by
  obtain ⟨hexponent, -, -⟩ := exponent_field hlow hhigh
  change (UnpackedFloat.pack .binary64 (.finite .positive m e hpos)).toNat = _
  rw [pack_finite hpos hlog hhigh, packComponents]
  change ((0#1 ++ BitVec.ofNat 11 (e + 1075).toNat) ++ BitVec.ofNat 52 m).toNat = _
  rw [BitVec.toNat_append, BitVec.toNat_append,
    ← Nat.shiftLeft_add_eq_or_of_lt (BitVec.isLt _),
    ← Nat.shiftLeft_add_eq_or_of_lt (BitVec.isLt _), Nat.shiftLeft_eq, Nat.shiftLeft_eq,
    BitVec.toNat_ofNat m]
  change (0 * 2 ^ 11 + _) * Exact.hiddenBit + m % Exact.hiddenBit = _
  congr 2
  omega

/-- **A positive normal number is read off its bits.** -/
theorem ofFloat_pack {m : Nat} {e : Int} (hpos : 0 < m) (hlog : m.log2 = 52) (hlow : -1074 < e)
    (hhigh : e ≤ 971) :
    Exact.ofFloat (.ofModel (pack (.finite .positive m e hpos))) = .finite false m e := by
  obtain ⟨hle, hlt⟩ := (Nat.log2_eq_iff (Nat.ne_of_gt hpos)).mp hlog
  have hfraction : Exact.hiddenBit + m % Exact.hiddenBit = m := by
    rw [Exact.hiddenBit]
    omega
  have hlow' := Nat.mod_lt m (show 0 < Exact.hiddenBit by decide)
  rw [Exact.ofFloat, toBits_pack hpos hlog hlow.le hhigh]
  have hsign : ¬ Exact.signBit ≤ (e + 1075).toNat * Exact.hiddenBit + m % Exact.hiddenBit := by
    rw [Exact.signBit]
    rw [Exact.hiddenBit] at hlow' ⊢
    omega
  have hmod : ((e + 1075).toNat * Exact.hiddenBit + m % Exact.hiddenBit) % Exact.hiddenBit
      = m % Exact.hiddenBit := by
    rw [Nat.mul_add_mod', Nat.mod_mod]
  have hdiv : ((e + 1075).toNat * Exact.hiddenBit + m % Exact.hiddenBit) / Exact.hiddenBit % 2048
      = (e + 1075).toNat := by
    rw [Nat.mul_comm, Nat.mul_add_div (by decide), Nat.div_eq_of_lt hlow', Nat.add_zero,
      Nat.mod_eq_of_lt (by omega)]
  rw [hmod, hdiv, decide_eq_false hsign]
  split
  · omega
  · omega
  · rw [hfraction, Int.ofNat_eq_natCast, Int.toNat_of_nonneg (by omega), Int.add_sub_cancel]

/-- **A positive count of at most 53 bits is exact.** -/
theorem ofNat_eq_pack {n : Nat} (hpos : 0 < n) (hlt : n < 2 ^ 53) :
    ∃ hshift : 0 < n <<< (52 - n.log2), Float.ofNat n = .ofModel
      (pack (.finite .positive (n <<< (52 - n.log2)) (-(52 - n.log2 : Nat)) hshift)) := by
  have hlog : n.log2 < 53 := (Nat.log2_lt (Nat.ne_of_gt hpos)).mpr hlt
  have hlong : (n <<< (52 - n.log2)).log2 = 52 := by
    rw [log2_shiftLeft hpos]
    omega
  have hshift := pos_of_log2 hlong.ge
  refine ⟨hshift, ?_⟩
  have hcount : n.toUInt64.toNat = n := Nat.mod_eq_of_lt (by omega)
  have hround : UnpackedFloat.ofNat .binary64 n
      = .finite .positive (n <<< (52 - n.log2)) (-(52 - n.log2 : Nat)) hshift := by
    have hexact := roundWithAccuracy_shiftLeft .positive 0 hshift hlong
      (e := 0 - (52 - n.log2 : Nat)) (by omega)
    rw [Nat.shiftLeft_zero] at hexact
    rw [ofNat_eq_roundWithAccuracy hpos, hexact]
    congr 1
    omega
  have hnormal : Normal .positive (-1074) 971
      (.finite .positive (n <<< (52 - n.log2)) (-(52 - n.log2 : Nat)) hshift) :=
    ⟨_, _, hshift, rfl, hlong, by omega, by omega⟩
  have hone : UnpackedFloat.mul .binary64
      (.finite .positive (n <<< (52 - n.log2)) (-(52 - n.log2 : Nat)) hshift)
      (Float.ofBits 0x3FF0000000000000).toModel.unpack
      = .finite .positive (n <<< (52 - n.log2)) (-(52 - n.log2 : Nat)) hshift := by
    have hexact := roundWithAccuracy_shiftLeft .positive 52 hshift hlong
      (e := -(52 - n.log2 : Nat) + -52) (by omega)
    rw [unpack_one, UnpackedFloat.mul, ← Nat.shiftLeft_eq]
    refine hexact.trans ?_
    congr 1
    omega
  change Float.ofScientific n false 0 = _
  rw [Float.ofScientific, dif_pos ⟨hlt, by decide⟩]
  change Float.ofModel (pack (UnpackedFloat.mul .binary64
      (pack (UnpackedFloat.ofNat .binary64 n.toUInt64.toNat)).unpack
      (Float.ofBits 0x3FF0000000000000).toModel.unpack)) = _
  rw [hcount, hround, unpack_pack hnormal, hone]

/-- **A count of at most 53 bits reads back.** -/
theorem truncate_ofNat {n : Nat} (hlt : n < 2 ^ 53) :
    (Exact.ofFloat (Float.ofNat n)).truncate = n := by
  rcases Nat.eq_zero_or_pos n with rfl | hpos
  · decide
  · have hlog : n.log2 < 53 := (Nat.log2_lt (Nat.ne_of_gt hpos)).mpr hlt
    obtain ⟨hshift, heq⟩ := ofNat_eq_pack hpos hlt
    have hlong : (n <<< (52 - n.log2)).log2 = 52 := by
      rw [log2_shiftLeft hpos]
      omega
    rw [heq, ofFloat_pack hshift hlong (by omega) (by omega), Exact.truncate, Exact.magnitude,
      if_neg Bool.false_ne_true]
    split
    · next hle =>
      have hzero : 52 - n.log2 = 0 := by omega
      rw [hzero]
      rfl
    · rw [neg_neg, Int.toNat_natCast, Nat.shiftLeft_shiftRight]
      rfl

end CodeClones.Double

namespace CodeClones.Exact

/-- **A word handed out as a double is read back.** -/
theorem unsigned32_ofNat (word : UInt32) : unsigned32 (Float.ofNat word.toNat) = word := by
  have hlt := word.toNat_lt
  rw [unsigned32, Double.truncate_ofNat (by omega)]
  rw [← UInt32.toNat_inj]
  change ((word.toNat : Int) % (wordCount : Int)).toNat % 2 ^ 32 = _
  rw [wordCount]
  omega

end CodeClones.Exact
