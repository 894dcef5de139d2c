/-!
# Decimal/Double — doubles as exact numbers

A finite double is `±mantissa * 2 ^ exponent`.  Reading it off its bits makes truncation, conversion
to fixed-width integers and the search for short decimals exact.
-/

namespace CodeClones

/-- The exact value of a double. -/
inductive Exact where
  | notANumber
  | infinite (negative : Bool)
  | finite (negative : Bool) (mantissa : Nat) (exponent : Int)
deriving DecidableEq, Repr

namespace Exact

/-- The place of the sign in the bits of a double. -/
def signBit : Nat := 0x8000000000000000

/-- The leading bit of a normal mantissa, which the bits leave out. -/
def hiddenBit : Nat := 0x10000000000000

/-- The number of values of a 32-bit word. -/
def wordCount : Nat := 4294967296

/-- **Read a double off its bits.** -/
def ofFloat (x : Float) : Exact :=
  let bits := x.toBits.toNat
  let negative := decide (signBit ≤ bits)
  let fraction := bits % hiddenBit
  match bits / hiddenBit % 2048 with
  | 0 => finite negative fraction (-1074)
  | 2047 => if fraction = 0 then infinite negative else notANumber
  | biased => finite negative (hiddenBit + fraction) (Int.ofNat biased - 1075)

/-- The integer part of the absolute value. -/
def magnitude : Exact → Nat
  | finite _ mantissa exponent =>
    if 0 ≤ exponent then mantissa <<< exponent.toNat else mantissa >>> (-exponent).toNat
  | _ => 0

/-- **Truncation toward zero**; zero for what is not finite. -/
def truncate : Exact → Int
  | finite negative mantissa exponent =>
    let whole := Int.ofNat (magnitude (finite negative mantissa exponent))
    if negative then -whole else whole
  | _ => 0

/-- Has the number no fraction? -/
def isWhole : Exact → Bool
  | finite _ mantissa exponent =>
    let places := (-exponent).toNat
    decide (0 ≤ exponent) || (mantissa >>> places) <<< places == mantissa
  | _ => false

/-- The double as an integer, if it is one. -/
def integer? (x : Float) : Option Int :=
  let exact := ofFloat x
  if exact.isWhole then some exact.truncate else none

/-- **Into 32 bits with sign** — truncated, then modulo `2 ^ 32`. -/
def signed32 (x : Float) : Int :=
  Int.bmod (ofFloat x).truncate wordCount

/-- **Into 32 bits without sign** — truncated, then modulo `2 ^ 32`. -/
def unsigned32 (x : Float) : UInt32 :=
  UInt32.ofNat ((ofFloat x).truncate % Int.ofNat wordCount).toNat

end Exact

end CodeClones
