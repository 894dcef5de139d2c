import CodeClones.Hash.Word
import Mathlib

/-!
# Proofs/Hash/Word — hashing and mixing lose nothing of a word

An odd factor is prime to `2 ^ 64` (`mul_injective`), and no word but zero is left as it is by a
shift, so a word can be told from its xor with a shifted copy of itself (`xorShift_injective`).
Words are finitely many: a step that keeps them apart also reaches all of them.  A hash of several
words is a chain of such steps, so it tells two lists apart that differ in one place
(`absorbWords_ne`).
-/

namespace CodeClones.Hash

/-! ## Steps that keep words apart -/

/-- **An odd factor can be cancelled.** -/
theorem mul_injective (factor : UInt64) (hodd : Odd factor.toNat) :
    Function.Injective fun word : UInt64 => word * factor := by
  intro x y h
  have hmod : x.toNat * factor.toNat ≡ y.toNat * factor.toNat [MOD 2 ^ 64] := by
    have htoNat := congrArg UInt64.toNat h
    rwa [UInt64.toNat_mul, UInt64.toNat_mul] at htoNat
  have hcancel : x.toNat ≡ y.toNat [MOD 2 ^ 64] :=
    Nat.ModEq.cancel_right_of_coprime (Nat.Coprime.pow_left 64 hodd.coprime_two_left) hmod
  exact UInt64.toNat_inj.mp (hcancel.eq_of_lt_of_lt x.toNat_lt y.toNat_lt)

/-- Only zero is left as it is by a shift. -/
theorem eq_zero_of_shiftRight_eq {word shift : UInt64} (hshift : 0 < shift.toNat % 64)
    (h : word >>> shift = word) : word = 0 := by
  have htoNat := congrArg UInt64.toNat h
  rw [UInt64.toNat_shiftRight, Nat.shiftRight_eq_div_pow] at htoNat
  by_contra hne
  have hpos : 0 < word.toNat := Nat.pos_of_ne_zero fun hzero => hne (UInt64.toNat_inj.mp hzero)
  exact (Nat.div_lt_self hpos (Nat.one_lt_two_pow hshift.ne')).ne htoNat

/-- **A word can be told from its xor with a shifted copy of itself.** -/
theorem xorShift_injective (shift : UInt64) (hshift : 0 < shift.toNat % 64) :
    Function.Injective fun word : UInt64 => word ^^^ (word >>> shift) := by
  intro x y h
  -- what two such words differ in is not changed by the shift
  have hdifference : (x ^^^ y) >>> shift = x ^^^ y := by
    rw [UInt64.shiftRight_xor, ← UInt64.xor_eq_zero_iff]
    calc x >>> shift ^^^ y >>> shift ^^^ (x ^^^ y)
        = (x ^^^ (x >>> shift)) ^^^ (y ^^^ (y >>> shift)) := by ac_rfl
      _ = 0 := UInt64.xor_eq_zero_iff.mpr h
  exact UInt64.xor_eq_zero_iff.mp (eq_zero_of_shiftRight_eq hshift hdifference)

/-- **The finaliser is a bijection of the words.** -/
theorem mix_bijective : Function.Bijective mix := by
  have hadd : Function.Injective fun word : UInt64 => word + 0x9E3779B97F4A7C15 :=
    fun _ _ => (UInt64.add_left_inj _).mp
  have hfirst := (mul_injective 0xBF58476D1CE4E5B9 (by decide)).comp
    (xorShift_injective 30 (by decide))
  have hsecond := (mul_injective 0x94D049BB133111EB (by decide)).comp
    (xorShift_injective 27 (by decide))
  have hlast := xorShift_injective 31 (by decide)
  exact (hlast.comp (hsecond.comp (hfirst.comp hadd))).bijective_of_finite

/-- **One step is a bijection of the hashes**, whatever word is absorbed. -/
theorem absorb_bijective_left (word : UInt64) :
    Function.Bijective fun hash => absorb hash word :=
  Function.Injective.bijective_of_finite <|
    (mul_injective multiplier (by decide)).comp fun _ _ => (UInt64.xor_left_inj word).mp

/-- **One step is a bijection of the words**, whatever the hash is. -/
theorem absorb_bijective_right (hash : UInt64) : Function.Bijective (absorb hash) :=
  Function.Injective.bijective_of_finite <|
    (mul_injective multiplier (by decide)).comp fun _ _ => (UInt64.xor_right_inj hash).mp

/-! ## Lists of words -/

/-- **Different hashes stay different** while the same words are absorbed. -/
theorem absorbWords_injective (words : List UInt64) :
    Function.Injective fun hash => absorbWords hash words := by
  induction words with
  | nil => exact Function.injective_id
  | cons word words ih => exact ih.comp (absorb_bijective_left word).injective

/-- **Lists that differ in one place have different hashes**, by induction on what stands before
that place; what stands after it keeps the hashes apart. -/
theorem absorbWords_ne {as bs : List UInt64} {place : Nat} (hlength : as.length = bs.length)
    (hdiffer : as[place]? ≠ bs[place]?)
    (hothers : ∀ other, other ≠ place → as[other]? = bs[other]?) (hash : UInt64) :
    absorbWords hash as ≠ absorbWords hash bs := by
  induction as generalizing bs place hash with
  | nil =>
    obtain rfl := List.length_eq_zero_iff.mp hlength.symm
    exact absurd rfl hdiffer
  | cons a as ih =>
    obtain ⟨b, bs, rfl⟩ := List.exists_cons_of_length_eq_add_one hlength.symm
    cases place with
    | zero =>
      have htails : as = bs := List.ext_getElem? fun i => by
        simpa using hothers (i + 1) i.succ_ne_zero
      subst htails
      refine fun h => hdiffer ?_
      have hheads := (absorb_bijective_right hash).injective (absorbWords_injective as h)
      rw [hheads]
    | succ place =>
      obtain rfl : a = b := by simpa using hothers 0 place.succ_ne_zero.symm
      refine ih (Nat.succ_inj.mp hlength) (by simpa using hdiffer) (fun other hne => ?_) _
      simpa using hothers (other + 1) (by omega)

end CodeClones.Hash
