import CodeClones.Sketch.Bytes
import Mathlib

/-!
# Proofs/Sketch/Bytes — slots and bytes carry the same bits

A slot is written as the eight digits of its number to the base `2 ^ 8`, the lowest one first
(`toNat_byteAt`), and eight bytes are read as the number with these digits (`toNat_toSlot`).
So writing and reading undo each other on one slot, and slot by slot on a whole buffer: whatever is
written reads back (`decode?_encode`), and whatever is read was written so
(`encode_of_decode?_eq_some`).  A buffer is read exactly if no bytes are left over
(`isSome_decode?_iff`).
-/

namespace CodeClones.SlotBytes

variable {slots : List UInt64} {bytes : List UInt8}

/-! ## One slot -/

/-- **A byte of a word** is a digit of its number to the base `2 ^ 8`. -/
theorem toNat_byteAt (word : UInt64) {place : Nat} (hplace : place < 8) :
    (byteAt word (.ofNat place)).toNat = word.toNat / 2 ^ (8 * place) % 2 ^ 8 := by
  have hshift : (8 * UInt64.ofNat place).toNat % 64 = 8 * place := by
    rw [UInt64.toNat_mul, UInt64.toNat_ofNat']
    change 8 * (place % 2 ^ 64) % 2 ^ 64 % 64 = 8 * place
    omega
  rw [byteAt, UInt64.toNat_toUInt8, UInt64.toNat_shiftRight, hshift, Nat.shiftRight_eq_div_pow]

/-- A byte put above the lower bits of a word. -/
theorem toNat_or_shiftLeft {word : UInt64} {n : Nat} (bits : Nat) (byte : UInt8)
    (hword : word.toNat = n) (hn : n < 2 ^ bits) (hbits : bits + 8 ≤ 64) :
    (word ||| byte.toUInt64 <<< .ofNat bits).toNat = n + 2 ^ bits * byte.toNat := by
  have hfits : 2 ^ bits * byte.toNat < 2 ^ 64 :=
    calc 2 ^ bits * byte.toNat
        < 2 ^ bits * 2 ^ 8 := Nat.mul_lt_mul_of_pos_left byte.toNat_lt (Nat.two_pow_pos bits)
      _ = 2 ^ (bits + 8) := (Nat.pow_add ..).symm
      _ ≤ 2 ^ 64 := Nat.pow_le_pow_right (by decide) hbits
  have hshift : (UInt64.ofNat bits).toNat % 64 = bits := by
    rw [UInt64.toNat_ofNat']
    omega
  rw [UInt64.toNat_or, hword, UInt64.toNat_shiftLeft, hshift, UInt8.toNat_toUInt64,
    Nat.shiftLeft_eq, Nat.mul_comm, Nat.mod_eq_of_lt hfits, Nat.or_comm,
    ← Nat.two_pow_add_eq_or_of_lt hn, Nat.add_comm]

section EightBytes

variable (a b c d e f g h : UInt8)

/-- **Eight bytes are the digits of a slot.** -/
theorem toNat_toSlot : (toSlot a b c d e f g h).toNat
    = a.toNat + 2 ^ 8 * b.toNat + 2 ^ 16 * c.toNat + 2 ^ 24 * d.toNat + 2 ^ 32 * e.toNat
      + 2 ^ 40 * f.toNat + 2 ^ 48 * g.toNat + 2 ^ 56 * h.toNat := by
  have hbyte : ∀ byte : UInt8, byte.toNat < 2 ^ 8 := UInt8.toNat_lt
  -- each byte finds the bits above the bytes before it free
  have ha := UInt8.toNat_toUInt64 a
  have hb := toNat_or_shiftLeft 8 b ha (hbyte a) (by decide)
  have hc := toNat_or_shiftLeft 16 c hb (by grind) (by decide)
  have hd := toNat_or_shiftLeft 24 d hc (by grind) (by decide)
  have he := toNat_or_shiftLeft 32 e hd (by grind) (by decide)
  have hf := toNat_or_shiftLeft 40 f he (by grind) (by decide)
  have hg := toNat_or_shiftLeft 48 g hf (by grind) (by decide)
  exact toNat_or_shiftLeft 56 h hg (by grind) (by decide)

/-- **Bytes that are read as a slot are its bytes.** -/
theorem ofSlot_toSlot : ofSlot (toSlot a b c d e f g h) = [a, b, c, d, e, f, g, h] := by
  have hslot := toNat_toSlot a b c d e f g h
  have ha := a.toNat_lt
  have hb := b.toNat_lt
  have hc := c.toNat_lt
  have hd := d.toNat_lt
  have he := e.toNat_lt
  have hf := f.toNat_lt
  have hg := g.toNat_lt
  have hh := h.toNat_lt
  have hbyte : ∀ place (byte : UInt8), place < 8 →
      (toSlot a b c d e f g h).toNat / 2 ^ (8 * place) % 2 ^ 8 = byte.toNat →
        byteAt (toSlot a b c d e f g h) (.ofNat place) = byte :=
    fun place byte hplace hdigit => UInt8.toNat_inj.mp ((toNat_byteAt _ hplace).trans hdigit)
  have h0 : byteAt _ 0 = a := hbyte 0 a (by decide) (by omega)
  have h1 : byteAt _ 1 = b := hbyte 1 b (by decide) (by omega)
  have h2 : byteAt _ 2 = c := hbyte 2 c (by decide) (by omega)
  have h3 : byteAt _ 3 = d := hbyte 3 d (by decide) (by omega)
  have h4 : byteAt _ 4 = e := hbyte 4 e (by decide) (by omega)
  have h5 : byteAt _ 5 = f := hbyte 5 f (by decide) (by omega)
  have h6 : byteAt _ 6 = g := hbyte 6 g (by decide) (by omega)
  have h7 : byteAt _ 7 = h := hbyte 7 h (by decide) (by omega)
  rw [ofSlot, h0, h1, h2, h3, h4, h5, h6, h7]

end EightBytes

/-- **A slot is read back from its bytes.** -/
theorem toSlot_ofSlot (word : UInt64) :
    toSlot (byteAt word 0) (byteAt word 1) (byteAt word 2) (byteAt word 3)
      (byteAt word 4) (byteAt word 5) (byteAt word 6) (byteAt word 7) = word := by
  have hlt := word.toNat_lt
  have hdigit : ∀ place, place < 8 →
      (byteAt word (.ofNat place)).toNat = word.toNat / 2 ^ (8 * place) % 2 ^ 8 :=
    fun _ hplace => toNat_byteAt word hplace
  have h0 : (byteAt word 0).toNat = _ := hdigit 0 (by decide)
  have h1 : (byteAt word 1).toNat = _ := hdigit 1 (by decide)
  have h2 : (byteAt word 2).toNat = _ := hdigit 2 (by decide)
  have h3 : (byteAt word 3).toNat = _ := hdigit 3 (by decide)
  have h4 : (byteAt word 4).toNat = _ := hdigit 4 (by decide)
  have h5 : (byteAt word 5).toNat = _ := hdigit 5 (by decide)
  have h6 : (byteAt word 6).toNat = _ := hdigit 6 (by decide)
  have h7 : (byteAt word 7).toNat = _ := hdigit 7 (by decide)
  refine UInt64.toNat_inj.mp ((toNat_toSlot ..).trans ?_)
  omega

/-! ## A whole buffer -/

/-- **A buffer is a signature** exactly if its length is a multiple of eight. -/
theorem isSome_decode?_iff (bytes : List UInt8) :
    (decode? bytes).isSome ↔ 8 ∣ bytes.length := by
  fun_induction decode? with
  | case1 => decide
  | case2 a b c d e f g h rest ih =>
    rw [Option.isSome_map, ih]
    simp only [List.length_cons, Nat.add_assoc]
    exact (Nat.dvd_add_left (Nat.dvd_refl 8)).symm
  | case3 bytes hnil hlong =>
    refine ⟨fun h => absurd h Bool.false_ne_true, fun hdvd => ?_⟩
    match bytes, hnil, hlong with
    | [], hnil, _ => exact absurd rfl hnil
    | [_], _, _ | [_, _], _, _ | [_, _, _], _, _ | [_, _, _, _], _, _ | [_, _, _, _, _], _, _
    | [_, _, _, _, _, _], _, _ | [_, _, _, _, _, _, _], _, _ =>
      simp only [List.length_cons, List.length_nil] at hdvd
      omega
    | a :: b :: c :: d :: e :: f :: g :: h :: rest, _, hlong =>
      exact absurd rfl (hlong a b c d e f g h rest)

/-- **Where a byte of a slot stands.** -/
theorem getElem?_encode {k : Nat} {slot : UInt64} {place : Nat} (hslot : slots[k]? = some slot)
    (hplace : place < 8) :
    (encode slots)[8 * k + place]? = some (byteAt slot (.ofNat place)) := by
  induction slots generalizing k with
  | nil => exact absurd hslot nofun
  | cons first slots ih =>
    change (ofSlot first ++ encode slots)[_]? = _
    cases k with
    | zero =>
      obtain rfl := Option.some.inj hslot
      have hbytes : ofSlot first
          = (List.range 8).map fun place => byteAt first (.ofNat place) := rfl
      rw [Nat.mul_zero, Nat.zero_add, List.getElem?_append_left hplace, hbytes, List.getElem?_map,
        List.getElem?_range hplace, Option.map_some]
    | succ k =>
      have hlength : (ofSlot first).length = 8 := rfl
      rw [List.getElem?_append_right (by omega), hlength, ← ih hslot]
      congr 1
      omega

/-- Slots that are written read back. -/
theorem decode?_encode (slots : List UInt64) : decode? (encode slots) = some slots := by
  induction slots with
  | nil => rfl
  | cons slot slots ih =>
    change (decode? (encode slots)).map _ = _
    rw [ih, toSlot_ofSlot]
    rfl

/-- Bytes that are read are written back. -/
theorem encode_of_decode?_eq_some (hread : decode? bytes = some slots) : encode slots = bytes := by
  fun_induction decode? bytes generalizing slots with
  | case1 => 
    cases hread
    rfl
  | case2 a b c d e f g h rest ih =>
    obtain ⟨slots, hrest, rfl⟩ := Option.map_eq_some_iff.mp hread
    change ofSlot (toSlot a b c d e f g h) ++ encode slots = _
    rw [ofSlot_toSlot, ih hrest]
    rfl
  | case3 => cases hread

end CodeClones.SlotBytes
