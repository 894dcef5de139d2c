import CodeClones.Window.RollingHash
import Mathlib

/-!
# Proofs/Window/RollingHash — a window that moves has the hash it would have anew

Read modulo the prime, the hash of a sequence is a polynomial in the base (`residue_foldl_append`),
so the share of the first value can be taken out of it and the next value appended
(`roll_ofValues`).  Values below the prime keep every product and every sum within 64 bits, and a
hash below the prime is settled by its residue.  So `windows` lists the hash of each window,
computed anew (`windows_eq`), and windows of equal values have equal hashes.
-/

namespace CodeClones

/-- **Repeated squaring** gives the power. -/
theorem powMod_eq (base exponent modulus : Nat) :
    powMod base exponent modulus = base ^ exponent % modulus := by
  fun_induction powMod base exponent modulus with
  | case1 base => rw [Nat.pow_zero]
  | case2 base exponent _ half heven ih =>
    have hhalves : exponent = 2 * (exponent / 2) := by omega
    conv_rhs => rw [hhalves]
    rw [show half = _ from ih, ← Nat.pow_mod, ← Nat.pow_two, ← Nat.pow_mul]
  | case3 base exponent _ half hodd ih =>
    have hhalves : exponent = 2 * (exponent / 2) + 1 := by omega
    conv_rhs => rw [hhalves]
    rw [show half = _ from ih, ← Nat.pow_mod, ← Nat.pow_two, ← Nat.pow_mul, Nat.mod_mul_mod,
      ← Nat.pow_succ]

namespace RollingHash

/-! ## Residues -/

/-- A word modulo the prime. -/
def residue (word : UInt64) : ZMod 1000000007 :=
  (word.toNat : ZMod 1000000007)

theorem lt_modulus_iff {word : UInt64} : word < modulus ↔ word.toNat < 1000000007 :=
  UInt64.lt_iff_toNat_lt

/-- **What is below the prime is settled by its residue.** -/
theorem eq_of_residue_eq {a b : UInt64} (ha : a < modulus) (hb : b < modulus)
    (h : residue a = residue b) : a = b := by
  rw [residue, residue, ZMod.natCast_eq_natCast_iff',
    Nat.mod_eq_of_lt (lt_modulus_iff.mp ha), Nat.mod_eq_of_lt (lt_modulus_iff.mp hb)] at h
  exact UInt64.toNat_inj.mp h

theorem mod_modulus_lt (word : UInt64) : word % modulus < modulus :=
  UInt64.mod_lt word (by decide)

theorem residue_mod (word : UInt64) : residue (word % modulus) = residue word := by
  rw [residue, UInt64.toNat_mod]
  exact ZMod.natCast_mod word.toNat 1000000007

theorem residue_zero : residue 0 = 0 := Nat.cast_zero

/-! ## Hashes -/

variable {hash value outgoing incoming : UInt64} {values : List UInt64}

theorem append_lt (hash value : UInt64) : append hash value < modulus :=
  mod_modulus_lt _

theorem mul_toNat_lt {a b : UInt64} (ha : a < modulus) (hb : b < modulus) :
    a.toNat * b.toNat < 1000000007 * 1000000007 :=
  Nat.mul_lt_mul'' (lt_modulus_iff.mp ha) (lt_modulus_iff.mp hb)

/-- **Products of what is below the prime** stay within 64 bits. -/
theorem toNat_mul {a b : UInt64} (ha : a < modulus) (hb : b < modulus) :
    (a * b).toNat = a.toNat * b.toNat := by
  rw [UInt64.toNat_mul]
  exact Nat.mod_eq_of_lt (Nat.lt_trans (mul_toNat_lt ha hb) (by decide))

/-- **Appending a value** stays within 64 bits. -/
theorem residue_append (hhash : hash < modulus) (hvalue : value < modulus) :
    residue (append hash value) = residue hash * 31 + residue value := by
  have hproduct : (hash * base).toNat = hash.toNat * 31 := toNat_mul hhash (by decide)
  have hsum : (hash * base + value).toNat = hash.toNat * 31 + value.toNat := by
    rw [lt_modulus_iff] at hhash hvalue
    rw [UInt64.toNat_add, hproduct]
    exact Nat.mod_eq_of_lt (by omega)
  rw [append, residue_mod, residue, hsum]
  push_cast
  rfl

theorem ofValues_concat (values : List UInt64) (value : UInt64) :
    ofValues (values ++ [value]) = append (ofValues values) value := by
  rw [ofValues, List.foldl_append, List.foldl_cons, List.foldl_nil, ofValues]

theorem ofValues_lt (values : List UInt64) : ofValues values < modulus := by
  induction values using List.reverseRecOn with
  | nil => decide
  | append_singleton values value => exact ofValues_concat values value ▸ append_lt _ _

theorem ofText_lt (text : String) : ofText text < modulus :=
  ofValues_lt _

/-- **The hash of a sequence is a polynomial in the base.** -/
theorem residue_foldl_append (hhash : hash < modulus)
    (hvalues : ∀ value ∈ values, value < modulus) :
    residue (values.foldl append hash)
      = residue hash * 31 ^ values.length + residue (ofValues values) := by
  induction values generalizing hash with
  | nil => rw [List.foldl_nil, List.length_nil, pow_zero, mul_one, ofValues, List.foldl_nil,
      residue_zero, add_zero]
  | cons value values ih =>
    obtain ⟨hvalue, hvalues⟩ := List.forall_mem_cons.mp hvalues
    rw [ofValues, List.foldl_cons, List.foldl_cons, List.length_cons,
      ih (append_lt hash value) hvalues, ih (append_lt 0 value) hvalues,
      residue_append hhash hvalue, residue_append (by decide) hvalue, residue_zero]
    ring

theorem toNat_topPower (width : Nat) :
    (ofWidth width).topPower.toNat = 31 ^ (width - 1) % 1000000007 := by
  have hlt : 31 ^ (width - 1) % 1000000007 < 1000000007 := Nat.mod_lt _ (by decide)
  change (UInt64.ofNat (powMod 31 (width - 1) 1000000007)).toNat = _
  rw [powMod_eq]
  exact UInt64.toNat_ofNat_of_lt (Nat.lt_trans hlt (by decide))

theorem share_lt (rolling : RollingHash) (value : UInt64) : rolling.share value < modulus :=
  mod_modulus_lt _

theorem topPower_lt (width : Nat) : (ofWidth width).topPower < modulus := by
  rw [lt_modulus_iff, toNat_topPower]
  exact Nat.mod_lt _ (by decide)

/-- **The share of the first value** stays within 64 bits. -/
theorem residue_share (width : Nat) (hvalue : value < modulus) :
    residue ((ofWidth width).share value) = residue value * 31 ^ (width - 1) := by
  rw [share, residue_mod, residue, toNat_mul hvalue (topPower_lt width), Nat.cast_mul,
    toNat_topPower, ZMod.natCast_mod]
  push_cast
  rfl

theorem toNat_add_modulus (hhash : hash < modulus) :
    (hash + modulus).toNat = hash.toNat + 1000000007 := by
  rw [lt_modulus_iff] at hhash
  rw [UInt64.toNat_add]
  exact Nat.mod_eq_of_lt (by change _ + 1000000007 < 2 ^ 64; omega)

theorem le_add_modulus {share : UInt64} (hhash : hash < modulus) (hshare : share < modulus) :
    share ≤ hash + modulus := by
  rw [lt_modulus_iff] at hshare
  rw [UInt64.le_iff_toNat_le, toNat_add_modulus hhash]
  omega

/-- **Taking a share out of a hash** stays within 64 bits. -/
theorem residue_sub {share : UInt64} (hhash : hash < modulus) (hshare : share < modulus) :
    residue (hash + modulus - share) = residue hash - residue share := by
  have hle := le_add_modulus hhash hshare
  have hle' := UInt64.le_iff_toNat_le.mp hle
  rw [residue, UInt64.toNat_sub_of_le _ _ hle, Nat.cast_sub hle', toNat_add_modulus hhash,
    Nat.cast_add, ZMod.natCast_self, add_zero]
  rfl

/-- **Moving a window by one** — the first value goes, the next one comes. -/
theorem roll_ofValues (houtgoing : outgoing < modulus)
    (hvalues : ∀ value ∈ values, value < modulus) :
    (ofWidth (values.length + 1)).roll (ofValues (outgoing :: values)) outgoing incoming
      = ofValues (values ++ [incoming]) := by
  have hpolynomial : residue (ofValues (outgoing :: values))
      = residue outgoing * 31 ^ values.length + residue (ofValues values) := by
    rw [ofValues, List.foldl_cons, residue_foldl_append (append_lt 0 outgoing) hvalues,
      residue_append (by decide) houtgoing, residue_zero, zero_mul, zero_add]
  have hrest : (ofValues (outgoing :: values) + modulus
      - (ofWidth (values.length + 1)).share outgoing) % modulus = ofValues values := by
    refine eq_of_residue_eq (mod_modulus_lt _) (ofValues_lt values) ?_
    rw [residue_mod, residue_sub (ofValues_lt _) (share_lt _ _), hpolynomial,
      residue_share _ houtgoing, Nat.add_sub_cancel, add_sub_cancel_left]
  rw [roll, hrest, ofValues_concat]

/-! ## All windows -/

variable {width : Nat}

/-- **The next window.** -/
theorem roll_windowAt (hwidth : 0 < width) (hvalues : ∀ value ∈ values, value < modulus)
    {start : Nat} (houtgoing : values[start]? = some outgoing)
    (hincoming : values[start + width]? = some incoming) :
    (ofWidth width).roll ((ofWidth width).windowAt values start) outgoing incoming
      = (ofWidth width).windowAt values (start + 1) := by
  obtain ⟨rest, rfl⟩ : ∃ rest, width = rest + 1 := ⟨width - 1, by omega⟩
  obtain ⟨hlt, -⟩ := List.getElem?_eq_some_iff.mp hincoming
  -- what both windows have in common
  obtain ⟨kept, hkept⟩ : ∃ kept, kept = (values.drop (start + 1)).take rest := ⟨_, rfl⟩
  have hlength : kept.length = rest := by
    rw [hkept, List.length_take, List.length_drop]
    omega
  have hbefore : (values.drop start).take (rest + 1) = outgoing :: kept := by
    obtain ⟨hstart, rfl⟩ := List.getElem?_eq_some_iff.mp houtgoing
    rw [List.drop_eq_getElem_cons hstart, List.take_succ_cons, hkept]
  have hafter : (values.drop (start + 1)).take (rest + 1) = kept ++ [incoming] := by
    rw [List.take_add_one, List.getElem?_drop, Nat.add_right_comm, Nat.add_assoc, hincoming,
      Option.toList_some, hkept]
  have hmem : ∀ value ∈ kept, value < modulus := fun value hvalue =>
    hvalues value (List.mem_of_mem_drop (List.mem_of_mem_take (hkept ▸ hvalue)))
  change (ofWidth (rest + 1)).roll (ofValues ((values.drop start).take (rest + 1))) _ _
    = ofValues ((values.drop (start + 1)).take (rest + 1))
  rw [hbefore, hafter, ← hlength]
  exact roll_ofValues (hvalues _ (List.mem_of_getElem? houtgoing)) hmem

/-- **All later windows.** -/
theorem rollOn_windowAt (hwidth : 0 < width) (hvalues : ∀ value ∈ values, value < modulus)
    (start : Nat) :
    (ofWidth width).rollOn ((ofWidth width).windowAt values start) (values.drop start)
        (values.drop (start + width))
      = (List.range' (start + 1) (values.length - (start + width))).map
          ((ofWidth width).windowAt values) := by
  induction hcount : values.length - (start + width) generalizing start with
  | zero =>
    rw [List.drop_eq_nil_of_le (i := start + width) (by omega), List.range'_zero, List.map_nil]
    cases values.drop start <;> rfl
  | succ count ih =>
    have hstart : start + width < values.length := by omega
    have hnext := ih (start + 1) (by omega)
    rw [show start + 1 + width = start + width + 1 by omega] at hnext
    rw [List.drop_eq_getElem_cons (i := start) (by omega), List.drop_eq_getElem_cons hstart,
      rollOn,
      roll_windowAt hwidth hvalues (List.getElem?_eq_getElem _) (List.getElem?_eq_getElem hstart),
      hnext, List.range'_succ, List.map_cons]

/-- **Rolling equals hashing anew**, window by window. -/
theorem windows_eq (hwidth : 0 < width) (hvalues : ∀ value ∈ values, value < modulus) :
    (ofWidth width).windows values
      = (List.range (values.length + 1 - width)).map ((ofWidth width).windowAt values) := by
  rw [windows, show (ofWidth width).width = width from rfl]
  by_cases hshort : values.length < width
  · rw [if_pos hshort, show values.length + 1 - width = 0 by omega, List.range_zero, List.map_nil]
  · have hrolled := rollOn_windowAt hwidth hvalues 0
    rw [List.drop_zero, Nat.zero_add] at hrolled
    rw [if_neg hshort, show values.length + 1 - width = values.length - width + 1 by omega,
      List.range_eq_range', List.range'_succ, List.map_cons]
    dsimp only
    rw [if_neg (Nat.ne_of_gt hwidth), hrolled]

end RollingHash

end CodeClones
