/-!
# Sketch/Bytes — signatures as bytes

Signatures are handed out as byte buffers: each slot is eight bytes, the lowest one first.  A buffer
is a signature exactly if its length is a multiple of eight.
-/

namespace CodeClones.SlotBytes

/-- The byte of a word that stands `place` bytes above the lowest. -/
def byteAt (word : UInt64) (place : UInt64) : UInt8 :=
  (word >>> (8 * place)).toUInt8

/-- The eight bytes of a slot. -/
def ofSlot (word : UInt64) : List UInt8 :=
  [byteAt word 0, byteAt word 1, byteAt word 2, byteAt word 3,
    byteAt word 4, byteAt word 5, byteAt word 6, byteAt word 7]

/-- The slot of eight bytes. -/
def toSlot (a b c d e f g h : UInt8) : UInt64 :=
  a.toUInt64 ||| b.toUInt64 <<< 8 ||| c.toUInt64 <<< 16 ||| d.toUInt64 <<< 24
    ||| e.toUInt64 <<< 32 ||| f.toUInt64 <<< 40 ||| g.toUInt64 <<< 48 ||| h.toUInt64 <<< 56

/-- **Slots to bytes.** -/
def encode (slots : List UInt64) : List UInt8 :=
  slots.flatMap ofSlot

/-- **Bytes to slots**; `none` if bytes are left over. -/
def decode? : List UInt8 → Option (List UInt64)
  | [] => some []
  | a :: b :: c :: d :: e :: f :: g :: h :: rest =>
    (decode? rest).map fun slots => toSlot a b c d e f g h :: slots
  | _ => none

end CodeClones.SlotBytes
