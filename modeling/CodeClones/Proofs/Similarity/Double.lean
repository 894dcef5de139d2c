import CodeClones.Similarity.Overlap
import Mathlib

/-!
# Proofs/Similarity/Double — a score is a number, whatever the counts are

In double precision "not below" and "at least" differ for what is not a number.  A positive count is
a normal number (`normal_toModel`), so the quotient of two counts is a number (`isNumber_toFloat`);
so is every value clamped into the unit interval (`clampUnit_spec`), and the two can be compared
either way (`le_of_not_lt`).  All counts here are below `2 ^ 100`, far from overflow.
-/

namespace CodeClones.Double

open Float.Model Float.Model.UnpackedFloat

/-! ## Rounding a long mantissa -/

theorem mantissa_shiftRight (em : ExtendedMantissa) (n : Nat) :
    (em >>> n).mantissa = em.mantissa / 2 ^ n := by
  induction n with
  | zero => exact (Nat.div_one _).symm
  | succ n ih =>
    change (em >>> n).mantissa / 2 = _
    rw [ih, Nat.div_div_eq_div_mul, Nat.pow_succ]

theorem mantissa_ofMantissaAndAccuracy (m : Nat) (accuracy : Accuracy) :
    (ExtendedMantissa.ofMantissaAndAccuracy m accuracy).mantissa = m := by
  rcases accuracy with - | (- | - | -) <;> rfl

/-- Rounding adds at most one. -/
theorem le_roundToNearestEven (m : Nat) (accuracy : Accuracy) :
    m ≤ accuracy.roundToNearestEven m ∧ accuracy.roundToNearestEven m ≤ m + 1 := by
  have hmod : m % 2 < 2 := Nat.mod_lt m Nat.two_pos
  rcases accuracy with - | (- | - | -) <;> rw [Accuracy.roundToNearestEven] <;> omega

theorem pos_of_log2 {m : Nat} (h : 52 ≤ m.log2) : 0 < m := by
  refine Nat.pos_of_ne_zero ?_
  rintro rfl
  exact absurd h (by decide)

/-- Shifting a long mantissa down to 53 bits. -/
theorem log2_div_pow {m : Nat} (h : 52 ≤ m.log2) : (m / 2 ^ (m.log2 - 52)).log2 = 52 := by
  have hm := Nat.ne_of_gt (pos_of_log2 h)
  have hpow : ∀ k, 2 ^ k * 2 ^ (m.log2 - 52) = 2 ^ (k + (m.log2 - 52)) := fun k =>
    (Nat.pow_add 2 k _).symm
  have hlow : 2 ^ 52 ≤ m / 2 ^ (m.log2 - 52) := by
    rw [Nat.le_div_iff_mul_le (Nat.two_pow_pos _), hpow, Nat.add_sub_cancel' h]
    exact Nat.log2_self_le hm
  refine (Nat.log2_eq_iff (Nat.ne_of_gt (Nat.lt_of_lt_of_le (by decide) hlow))).mpr ⟨hlow, ?_⟩
  rw [Nat.div_lt_iff_lt_mul (Nat.two_pow_pos _), hpow, Nat.add_right_comm, Nat.add_sub_cancel' h]
  exact Nat.lt_log2_self

/-- Shifting a mantissa up. -/
theorem log2_shiftLeft {m : Nat} (hm : 0 < m) (k : Nat) : (m <<< k).log2 = m.log2 + k := by
  obtain ⟨hlow, hhigh⟩ := (Nat.log2_eq_iff (Nat.ne_of_gt hm)).mp rfl
  have hk := Nat.two_pow_pos k
  rw [Nat.shiftLeft_eq, Nat.log2_eq_iff (Nat.ne_of_gt (Nat.mul_pos hm hk)), Nat.add_right_comm,
    Nat.pow_add, Nat.pow_add]
  exact ⟨Nat.mul_le_mul_right _ hlow, Nat.mul_lt_mul_of_pos_right hhigh hk⟩

/-- Rounding may carry into one more bit. -/
theorem log2_roundedMantissa {em : ExtendedMantissa} (h : em.mantissa.log2 = 52) :
    52 ≤ em.roundedMantissa.log2 ∧ em.roundedMantissa.log2 ≤ 53 := by
  have hpos := pos_of_log2 (Nat.le_of_eq h.symm)
  obtain ⟨hlow, hhigh⟩ := (Nat.log2_eq_iff (Nat.ne_of_gt hpos)).mp h
  obtain ⟨hle, hle'⟩ := le_roundToNearestEven em.mantissa em.accuracy
  rw [← ExtendedMantissa.roundedMantissa] at hle hle'
  have hne : em.roundedMantissa ≠ 0 := by omega
  exact ⟨(Nat.le_log2 hne).mpr (by omega),
    Nat.lt_succ_iff.mp ((Nat.log2_lt hne).mpr (by omega))⟩

theorem shiftToTargetExponent_eq {m : Nat} {e : Int} (accuracy : Accuracy) (hlong : 52 ≤ m.log2)
    (he : -1074 ≤ e) :
    shiftToTargetExponent .binary64 m e accuracy
      = (ExtendedMantissa.ofMantissaAndAccuracy m accuracy >>> (m.log2 - 52),
        e + (m.log2 - 52 : Nat)) := by
  have htarget : Format.binary64.targetExponent (totalExponent m e) = e + (m.log2 - 52 : Nat) := by
    change max ((m.log2 : Int) + 1 + e - 53) (-1074) = _
    omega
  rw [shiftToTargetExponent, htarget, shiftToExponent]
  simp

/-- **A normal number** of some sign — its mantissa has 53 bits, and its exponent is within
bounds. -/
def Normal (sign : Sign) (low high : Int) (u : UnpackedFloat) : Prop :=
  ∃ (m : Nat) (e : Int) (hpos : 0 < m),
    u = .finite sign m e hpos ∧ m.log2 = 52 ∧ low ≤ e ∧ e ≤ high

theorem Normal.mono {sign : Sign} {low low' high high' : Int} {u : UnpackedFloat}
    (h : Normal sign low high u) (hlow : low' ≤ low) (hhigh : high ≤ high') :
    Normal sign low' high' u := by
  obtain ⟨m, e, hpos, heq, hlog, hle, hle'⟩ := h
  exact ⟨m, e, hpos, heq, hlog, Int.le_trans hlow hle, Int.le_trans hle' hhigh⟩

/-- What rounding keeps of a long mantissa, with the carry if there is one. -/
def kept (m : Nat) (accuracy : Accuracy) : Nat :=
  (ExtendedMantissa.ofMantissaAndAccuracy m accuracy >>> (m.log2 - 52)).roundedMantissa

theorem log2_kept {m : Nat} (accuracy : Accuracy) (hlong : 52 ≤ m.log2) :
    52 ≤ (kept m accuracy).log2 ∧ (kept m accuracy).log2 ≤ 53 := by
  refine log2_roundedMantissa ?_
  rw [mantissa_shiftRight, mantissa_ofMantissaAndAccuracy]
  exact log2_div_pow hlong

/-- **Rounding a long mantissa** — a carry is shifted out again. -/
theorem roundWithAccuracy_eq (sign : Sign) {m : Nat} {e : Int} (accuracy : Accuracy)
    (hlong : 52 ≤ m.log2) (he : -1074 ≤ e) :
    ∃ hpos, roundWithAccuracy .binary64 sign m e accuracy
      = .finite sign (kept m accuracy / 2 ^ ((kept m accuracy).log2 - 52))
        (e + (m.log2 - 52 : Nat) + ((kept m accuracy).log2 - 52 : Nat)) hpos := by
  obtain ⟨hlow, -⟩ := log2_kept accuracy hlong
  have hpos := pos_of_log2 (log2_div_pow hlow).ge
  refine ⟨hpos, ?_⟩
  rw [roundWithAccuracy, shiftToTargetExponent_eq accuracy hlong he]
  dsimp only
  rw [← kept, shiftToTargetExponent_eq .exact hlow (by omega)]
  dsimp only
  rw [mantissa_shiftRight, mantissa_ofMantissaAndAccuracy, dif_neg (Nat.ne_of_gt hpos)]

/-- It leaves 53 bits of it. -/
theorem normal_roundWithAccuracy (sign : Sign) {m : Nat} {e : Int} (accuracy : Accuracy)
    (hlong : 52 ≤ m.log2) (he : -1074 ≤ e) :
    Normal sign e (e + m.log2 - 51) (roundWithAccuracy .binary64 sign m e accuracy) := by
  obtain ⟨hpos, heq⟩ := roundWithAccuracy_eq sign accuracy hlong he
  obtain ⟨hlow, hhigh⟩ := log2_kept accuracy hlong
  exact ⟨_, _, hpos, heq, log2_div_pow hlow, by omega, by omega⟩

/-! ## Packing -/

/-- The exponent field of a normal number. -/
theorem exponent_field {e : Int} (hlow : -1074 ≤ e) (hhigh : e ≤ 971) :
    ((BitVec.ofNat 11 (e + 1075).toNat).toNat : Int) = e + 1075
      ∧ BitVec.ofNat 11 (e + 1075).toNat ≠ -1#11 ∧ BitVec.ofNat 11 (e + 1075).toNat ≠ 0#11 := by
  have hfield : (BitVec.ofNat 11 (e + 1075).toNat).toNat = (e + 1075).toNat :=
    Nat.mod_eq_of_lt (by omega)
  refine ⟨by omega, fun heq => ?_, fun heq => ?_⟩
  · rw [heq] at hfield
    change 2047 = _ at hfield
    omega
  · rw [heq] at hfield
    change 0 = _ at hfield
    omega

/-- The mantissa field with its leading bit put back. -/
theorem mantissa_field {m : Nat} (hlog : m.log2 = 52) : (1#1 ++ BitVec.ofNat 52 m).toNat = m := by
  have hpos := pos_of_log2 (Nat.le_of_eq hlog.symm)
  obtain ⟨hlow, hhigh⟩ := (Nat.log2_eq_iff (Nat.ne_of_gt hpos)).mp hlog
  rw [BitVec.toNat_append, ← Nat.shiftLeft_add_eq_or_of_lt (BitVec.isLt _), BitVec.toNat_ofNat,
    Nat.shiftLeft_eq]
  change 2 ^ 52 + m % 2 ^ 52 = m
  omega

theorem pack_finite {sign : Sign} {m : Nat} {e : Int} (hpos : 0 < m) (hlog : m.log2 = 52)
    (hhigh : e ≤ 971) :
    UnpackedFloat.pack .binary64 (.finite sign m e hpos)
      = packComponents .binary64 sign (BitVec.ofNat 11 (e + 1075).toNat) (BitVec.ofNat 52 m) := by
  have hbiased : e + 1023 + 52 = e + 1075 := by omega
  change (if 2 ^ 11 ≤ (e + 1023 + 52).toNat + 1 then _ else if m.log2 + 1 = 53 then
    packComponents .binary64 sign (BitVec.ofNat 11 (e + 1023 + 52).toNat) (BitVec.ofNat 52 m)
    else _) = _
  rw [if_neg (by omega), if_pos (by rw [hlog]), hbiased]

/-- **Packing loses nothing** of a normal number. -/
theorem unpack_pack {sign : Sign} {u : UnpackedFloat} (h : Normal sign (-1074) 971 u) :
    (pack u).unpack = u := by
  obtain ⟨m, e, hpos, rfl, hlog, hlow, hhigh⟩ := h
  obtain ⟨hexponent, hinfinite, hzero⟩ := exponent_field hlow hhigh
  change UnpackedFloat.unpack .binary64 (UnpackedFloat.pack .binary64 _) = _
  rw [pack_finite hpos hlog hhigh, UnpackedFloat.unpack]
  simp only [unpackExponent_packComponents, unpackMantissa_packComponents,
    unpackSign_packComponents, Sign.ofBitVec_toBitVec]
  rw [if_neg hinfinite, if_neg hzero]
  congr 1
  · exact mantissa_field hlog
  · rw [hexponent]
    change e + 1075 - (1023 + 52) = e
    omega

/-- **What is a number stays one** when it is packed. -/
theorem unpack_pack_ne {u : UnpackedFloat} (h : u ≠ .notANumber) :
    (pack u).unpack ≠ .notANumber := by
  have hfinite : ∀ {sign exponent mantissa}, exponent ≠ -1#11 →
      packComponents .binary64 sign exponent mantissa ≠ packedNaN .binary64 := by
    intro sign exponent mantissa hne heq
    have hexponent := congrArg unpackExponent heq
    rw [packedNaN, unpackExponent_packComponents, unpackExponent_packComponents] at hexponent
    exact hne hexponent
  have hinfinite : ∀ sign, packedInfinity .binary64 sign ≠ packedNaN .binary64 := by
    rintro (- | -) <;> decide
  change UnpackedFloat.unpack .binary64 (UnpackedFloat.pack .binary64 u) ≠ _
  rw [Ne, unpack_eq_notANumber_iff_of_valid valid_pack]
  fun_cases UnpackedFloat.pack with
  | case1 => exact absurd rfl h
  | case2 sign => exact hinfinite sign
  | case3 sign => exact hfinite (by decide)
  | case4 sign m e hpos biased hover => exact hinfinite sign
  | case5 sign m e hpos bits biased hroom hfull =>
    refine hfinite fun heq => hroom ?_
    have hfield := congrArg BitVec.toNat heq
    change biased % 2048 = 2047 at hfield
    change 2048 ≤ biased + 1
    omega
  | case6 sign m e hpos bits biased hroom hfull => exact hfinite (by decide)

/-! ## Comparison -/

theorem compare_swap (a b : UnpackedFloat) : a.compare b = (b.compare a).map Ordering.swap := by
  have hswap : ∀ (e e' : Int) (m m' : Nat), (compare e e').then (compare m m')
      = ((compare e' e).then (compare m' m)).swap := fun e e' m m' => by
    rw [Ordering.swap_then, Int.compare_swap, Nat.compare_swap]
  rcases a with (- | -) | - | (- | -) | ⟨- | -, m, e, hpos⟩ <;>
    rcases b with (- | -) | - | (- | -) | ⟨- | -, m', e', hpos'⟩ <;>
    first
    | rfl
    | exact congrArg some (congrArg Ordering.swap (hswap e e' m m'))
    | exact congrArg some (hswap e e' m m')

/-- Numbers can be compared. -/
theorem isSome_compare {a b : UnpackedFloat} (ha : a ≠ .notANumber) (hb : b ≠ .notANumber) :
    (a.compare b).isSome = true := by
  rcases a with (- | -) | - | (- | -) | ⟨- | -, m, e, hpos⟩ <;>
    rcases b with (- | -) | - | (- | -) | ⟨- | -, m', e', hpos'⟩ <;>
    first
    | rfl
    | contradiction

/-- **A number** — anything but "not a number". -/
def IsNumber (x : Float) : Prop :=
  x.toModel.unpack ≠ .notANumber

variable {x y : Float}

theorem lt_iff : x < y ↔ x.toModel.unpack.compare y.toModel.unpack = some .lt :=
  decide_eq_true_iff.trans beq_iff_eq

theorem le_iff : x ≤ y ↔ (x.toModel.unpack.compare y.toModel.unpack).any (·.isLE) = true :=
  decide_eq_true_iff

/-- **Of two numbers, one that is not below the other is at least the other.** -/
theorem le_of_not_lt (hx : IsNumber x) (hy : IsNumber y) (h : ¬x < y) : y ≤ x := by
  obtain ⟨order, horder⟩ := Option.isSome_iff_exists.mp (isSome_compare hx hy)
  rw [lt_iff, horder] at h
  rw [le_iff, compare_swap, horder]
  cases order with
  | lt => exact absurd rfl h
  | eq => rfl
  | gt => rfl

theorem not_lt_of_le (h : y ≤ x) : ¬x < y := by
  intro hlt
  rw [le_iff, compare_swap, lt_iff.mp hlt] at h
  exact absurd h (by decide)

theorem not_lt_of_lt (h : x < y) : ¬y < x := by
  rw [lt_iff] at h
  rw [lt_iff, compare_swap, h]
  decide

/-- Only numbers are compared. -/
theorem isNumber_of_lt (h : x < y) : IsNumber x ∧ IsNumber y := by
  rw [lt_iff] at h
  refine ⟨fun hx => ?_, fun hy => ?_⟩
  · rw [hx] at h
    exact absurd h nofun
  · rw [hy, compare_swap] at h
    exact absurd h nofun

theorem isNumber_zero : IsNumber 0 := nofun

theorem isNumber_one : IsNumber 1 := nofun

/-- **Whatever is clamped**, the result is a number and at most one. -/
theorem clampUnit_spec (x : Float) : IsNumber (clampUnit x) ∧ clampUnit x ≤ 1 := by
  have htop : IsNumber (if x < 1 then x else 1) ∧ (if x < 1 then x else 1) ≤ 1 := by
    split
    · next hlt =>
      have hx := (isNumber_of_lt hlt).1
      exact ⟨hx, le_of_not_lt isNumber_one hx (not_lt_of_lt hlt)⟩
    · exact ⟨isNumber_one, by decide⟩
  rw [clampUnit]
  by_cases hpos : 0 < if x < 1 then x else 1
  · rw [if_pos hpos]
    exact htop
  · rw [if_neg hpos]
    exact ⟨isNumber_zero, by decide⟩

/-! ## Counts as doubles -/

/-- A count is shifted up to 53 bits. -/
theorem ofNat_eq_roundWithAccuracy {n : Nat} (hpos : 0 < n) :
    UnpackedFloat.ofNat .binary64 n = roundWithAccuracy .binary64 .positive
      (n <<< (52 - n.log2)) (0 - (52 - n.log2 : Nat)) .exact := by
  have hshift : (0 - Format.binary64.targetExponent (totalExponent n 0)).toNat = 52 - n.log2 := by
    change (0 - max ((n.log2 : Int) + 1 + 0 - 53) (-1074)).toNat = _
    omega
  rw [UnpackedFloat.ofNat, UnpackedFloat.ofInt, UnpackedFloat.normalize.eq_def,
    Int.compare_eq_gt.mpr (Int.natCast_pos.mpr hpos)]
  dsimp only
  rw [UnpackedFloat.round, decreaseExponent, Int.toNat_natCast, hshift]

theorem normal_ofNat {n : Nat} (hpos : 0 < n) :
    Normal .positive (-52) (n.log2 - 51) (UnpackedFloat.ofNat .binary64 n) := by
  have hlog := log2_shiftLeft hpos (52 - n.log2)
  rw [ofNat_eq_roundWithAccuracy hpos]
  exact (normal_roundWithAccuracy .positive .exact (by omega) (by omega)).mono (by omega)
    (by omega)

/-- The double that a small count is multiplied by. -/
theorem unpack_one : (Float.ofBits 0x3FF0000000000000).toModel.unpack
    = .finite .positive (2 ^ 52) (-52) (Nat.two_pow_pos 52) := rfl

theorem Normal.mul_one {low high : Int} {u : UnpackedFloat} (h : Normal .positive low high u)
    (hlow : -1022 ≤ low) :
    Normal .positive (low - 52) (high + 1)
      (UnpackedFloat.mul .binary64 u (Float.ofBits 0x3FF0000000000000).toModel.unpack) := by
  obtain ⟨m, e, hpos, rfl, hlog, hle, hle'⟩ := h
  have hlong := log2_shiftLeft hpos 52
  rw [Nat.shiftLeft_eq] at hlong
  have hround := normal_roundWithAccuracy .positive (m := m * 2 ^ 52) (e := e + -52)
    .exact (by omega) (by omega)
  rw [unpack_one, UnpackedFloat.mul]
  exact hround.mono (by omega) (by omega)

/-- A larger count is rounded from a mantissa with room to spare. -/
theorem normal_ofScientific {n : Nat} (hpos : 0 < n) :
    Normal .positive (-53) (n.log2 - 51) (UnpackedFloat.ofScientific .binary64 n 0) := by
  have hlong := log2_shiftLeft hpos 53
  have hround := normal_roundWithAccuracy .positive (m := n <<< 53) (e := -53) .exact (by omega)
    (by decide)
  have hproduct : UnpackedFloat.ofScientific .binary64 n 0
      = roundWithAccuracy .binary64 .positive (n <<< 53) (-53) .exact := by
    have hroom : ¬(0 : Int) < -(2 ^ Format.binary64.exponentBits + n.log2) := by
      change ¬(0 : Int) < -(2048 + n.log2)
      omega
    rw [UnpackedFloat.ofScientific, dif_neg (Nat.ne_of_gt hpos), if_neg (by decide),
      if_neg hroom, if_pos (Int.le_refl 0), UnpackedFloat.mul]
    change roundWithAccuracy .binary64 .positive (n <<< 53 * 1) (-53 + 0) .exact = _
    rw [Nat.mul_one, Int.add_zero]
  rw [hproduct]
  exact hround.mono (by decide) (by omega)

/-- **A positive count is a normal number.** -/
theorem normal_toModel {n : Nat} (hpos : 0 < n) (hlt : n < 2 ^ 100) :
    Normal .positive (-1074) 971 (Float.ofNat n).toModel.unpack := by
  have hlog : n.log2 < 100 := (Nat.log2_lt (Nat.ne_of_gt hpos)).mpr hlt
  change Normal _ _ _ (Float.ofScientific n false 0).toModel.unpack
  rw [Float.ofScientific]
  split
  · next hsmall =>
    have hcount : n.toUInt64.toNat = n := Nat.mod_eq_of_lt (by omega)
    have hnormal : Normal .positive (-52) 49 (UnpackedFloat.ofNat .binary64 n) :=
      (normal_ofNat hpos).mono (Int.le_refl _) (by omega)
    have hproduct : Normal .positive (-1074) 971 (UnpackedFloat.mul .binary64 _ _) :=
      (hnormal.mul_one (by decide)).mono (by decide) (by decide)
    change Normal _ _ _ (pack (UnpackedFloat.mul .binary64
      (pack (UnpackedFloat.ofNat .binary64 n.toUInt64.toNat)).unpack
      (Float.ofBits 0x3FF0000000000000).toModel.unpack)).unpack
    rwa [hcount, unpack_pack (hnormal.mono (by decide) (by decide)), unpack_pack hproduct]
  · have hround : Normal .positive (-1074) 971 (UnpackedFloat.ofScientific .binary64 n 0) :=
      (normal_ofScientific hpos).mono (by decide) (by omega)
    change Normal _ _ _ (pack (UnpackedFloat.ofScientific .binary64 n 0)).unpack
    rwa [unpack_pack hround]

/-- Dividing finite numbers never fails. -/
theorem roundWithAccuracy_ne (sign : Sign) (m : Nat) (e : Int) (accuracy : Accuracy) :
    roundWithAccuracy .binary64 sign m e accuracy ≠ .notANumber := by
  rw [roundWithAccuracy]
  dsimp only
  split <;> exact nofun

/-- **A quotient of counts is a number.** -/
theorem isNumber_quotient {shared total : Nat} (hpos : 0 < total) (hshared : shared < 2 ^ 100)
    (htotal : total < 2 ^ 100) : IsNumber (Float.ofNat shared / Float.ofNat total) := by
  obtain ⟨m, e, hm, heq, -⟩ := normal_toModel hpos htotal
  refine unpack_pack_ne ?_
  rw [heq]
  rcases Nat.eq_zero_or_pos shared with rfl | hshared_pos
  · exact nofun
  · obtain ⟨m', e', hm', heq', -⟩ := normal_toModel hshared_pos hshared
    rw [heq', UnpackedFloat.div]
    exact roundWithAccuracy_ne _ _ _ _

/-- The quotient of a number by itself, to 53 places. -/
theorem divCore_self {m : Nat} (hpos : 0 < m) (e : Int) :
    divCore .binary64 m e m e = (2 ^ 53, -53, .exact) := by
  have htarget : min (e - e) (Format.binary64.targetExponent
      (totalExponent m e - totalExponent m e)) = -53 := by
    rw [Int.sub_self, Int.sub_self]
    rfl
  rw [divCore, htarget, Int.sub_self]
  change ((m <<< 53) / m, (-53 : Int), accuracyOfFraction ((m <<< 53) % m) m) = _
  rw [Nat.shiftLeft_eq, Nat.mul_div_cancel_left _ hpos, Nat.mul_mod_right]
  rfl

theorem quotient_self {total : Nat} (hpos : 0 < total) (htotal : total < 2 ^ 100) :
    Float.ofNat total / Float.ofNat total = 1 := by
  obtain ⟨m, e, hm, heq, -⟩ := normal_toModel hpos htotal
  change Float.ofModel (pack (UnpackedFloat.div .binary64 (Float.ofNat total).toModel.unpack
    (Float.ofNat total).toModel.unpack)) = 1
  rw [heq, UnpackedFloat.div, divCore_self hm]
  rfl

/-- What is too large for a normal number is packed as infinite. -/
theorem unpack_pack_or {sign : Sign} {low high : Int} {u : UnpackedFloat}
    (h : Normal sign low high u) (hlow : -1074 ≤ low) :
    (pack u).unpack = u ∨ (pack u).unpack = .infinity sign := by
  obtain ⟨m, e, hpos, rfl, hlog, hle, -⟩ := h
  by_cases hhigh : e ≤ 971
  · exact Or.inl (unpack_pack ⟨m, e, hpos, rfl, hlog, Int.le_trans hlow hle, hhigh⟩)
  · have hinfinite : UnpackedFloat.pack .binary64 (.finite sign m e hpos)
        = packedInfinity .binary64 sign := by
      change (if 2 ^ 11 ≤ (e + 1023 + 52).toNat + 1 then _ else _) = _
      rw [if_pos (by omega)]
    refine Or.inr ?_
    change UnpackedFloat.unpack .binary64 (UnpackedFloat.pack .binary64 _) = _
    rw [hinfinite]
    cases sign <;> rfl

/-- A positive count of any size is a positive double, maybe infinite. -/
theorem unpack_ofNat_positive {n : Nat} (hpos : 0 < n) :
    (∃ m e hm, (Float.ofNat n).toModel.unpack = .finite .positive m e hm)
      ∨ (Float.ofNat n).toModel.unpack = .infinity .positive := by
  by_cases hlt : n < 2 ^ 100
  · obtain ⟨m, e, hm, heq, -⟩ := normal_toModel hpos hlt
    exact Or.inl ⟨m, e, hm, heq⟩
  · have hlarge : (Float.ofNat n).toModel.unpack
        = (pack (UnpackedFloat.ofScientific .binary64 n 0)).unpack := by
      change (Float.ofScientific n false 0).toModel.unpack = _
      rw [Float.ofScientific, dif_neg fun h => hlt (Nat.lt_trans h.1 (by decide))]
      rfl
    have hnormal := normal_ofScientific hpos
    rw [hlarge]
    rcases unpack_pack_or hnormal (by decide) with heq | heq
    · obtain ⟨m, e, hm, hfinite, -⟩ := hnormal
      exact Or.inl ⟨m, e, hm, heq.trans hfinite⟩
    · exact Or.inr heq

/-- Nothing out of any positive count is zero. -/
theorem zero_quotient {total : Nat} (hpos : 0 < total) :
    Float.ofNat 0 / Float.ofNat total = 0 := by
  change Float.ofModel (pack (UnpackedFloat.div .binary64 (.zero .positive)
    (Float.ofNat total).toModel.unpack)) = 0
  rcases unpack_ofNat_positive hpos with ⟨m, e, hm, heq⟩ | heq
  · rw [heq]
    rfl
  · rw [heq]
    rfl

/-! ## Scores -/

/-- **A score is a number.** -/
theorem isNumber_toFloat {overlap : Overlap} (hle : overlap.shared ≤ overlap.total)
    (htotal : overlap.total < 2 ^ 100) : IsNumber overlap.toFloat := by
  rw [Overlap.toFloat, Overlap.score]
  split
  · exact isNumber_zero
  · next hne =>
    exact isNumber_quotient (Nat.pos_of_ne_zero hne) (Nat.lt_of_le_of_lt hle htotal) htotal

/-- **The score of a full overlap is one.** -/
theorem toFloat_full {count : Nat} (hpos : 0 < count) (hlt : count < 2 ^ 100) :
    (Overlap.mk count count).toFloat = 1 := by
  rw [Overlap.toFloat, Overlap.score, if_neg (Nat.ne_of_gt hpos)]
  exact quotient_self hpos hlt

/-- **The score of an empty overlap is zero.** -/
theorem toFloat_none (total : Nat) : (Overlap.mk 0 total).toFloat = 0 := by
  rw [Overlap.toFloat, Overlap.score]
  split
  · rfl
  · next hne => exact zero_quotient (Nat.pos_of_ne_zero hne)

end CodeClones.Double
