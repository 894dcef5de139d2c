import CodeClones.Decimal.Double

/-!
# Decimal/Shortest — the fewest digits that read back

Every decimal in the rounding interval of a double reads back as that double.  `shortest` looks for
one with as few digits as possible, and among those of equal length takes the nearest.  All
comparisons are between natural numbers.
-/

namespace CodeClones.Decimal

/-- A positive decimal: `0.d₁d₂… * 10 ^ point`, where `digits` is the number written `d₁d₂…`. -/
structure Digits where
  digits : Nat
  point : Int
deriving DecidableEq, Repr

/-- A double with the ends of its rounding interval, as multiples of `1 / scale`. -/
structure Interval where
  value : Nat
  low : Nat
  high : Nat
  scale : Nat
  /-- Do the ends belong to the interval? -/
  closed : Bool

/-- **The rounding interval** of `mantissa * 2 ^ exponent`.  Below a power of two the next double is
only half as far away. -/
def Interval.of (mantissa : Nat) (exponent : Int) : Interval :=
  let up := if 2 ≤ exponent then 1 <<< (exponent - 2).toNat else 1
  let below := if mantissa = Exact.hiddenBit ∧ -1074 < exponent then 1 else 2
  { value := 4 * mantissa * up
    low := (4 * mantissa - below) * up
    high := (4 * mantissa + 2) * up
    scale := if 2 ≤ exponent then 1 else 1 <<< (2 - exponent).toNat
    closed := mantissa % 2 == 0 }

/-- How many decimal digits a number has. -/
def digitCount (n : Nat) : Nat :=
  (Nat.toDigits 10 n).length

/-- The place of the decimal point: the least `p` with `value < 10 ^ p`. -/
def pointOf (interval : Interval) : Int :=
  if interval.scale ≤ interval.value then Int.ofNat (digitCount (interval.value / interval.scale))
  else
    let inverse := (interval.scale + interval.value - 1) / interval.value
    1 - Int.ofNat (digitCount (inverse - 1))

/-- A multiple of `10 ^ power`, and a bound of the interval, on a common scale. -/
def common (interval : Interval) (power : Int) (multiple bound : Nat) : Nat × Nat :=
  if 0 ≤ power then (multiple * Nat.pow 10 power.toNat * interval.scale, bound)
  else (multiple * interval.scale, bound * Nat.pow 10 (-power).toNat)

/-- Does the multiple lie in the interval? -/
def contains (interval : Interval) (power : Int) (multiple : Nat) : Bool :=
  let (m, low) := common interval power multiple interval.low
  let (_, high) := common interval power multiple interval.high
  if interval.closed then decide (low ≤ m) && decide (m ≤ high)
  else decide (low < m) && decide (m < high)

/-- How far the multiple is from the value. -/
def distance (interval : Interval) (power : Int) (multiple : Nat) : Nat :=
  let (m, value) := common interval power multiple interval.value
  (m - value) + (value - m)

/-- The largest multiple of `10 ^ power` that is not above the value. -/
def below (interval : Interval) (power : Int) : Nat :=
  if 0 ≤ power then interval.value / (Nat.pow 10 power.toNat * interval.scale)
  else interval.value * Nat.pow 10 (-power).toNat / interval.scale

/-- The nearest decimal of `count` digits in the interval, if there is one. -/
def ofLength? (interval : Interval) (point : Int) (count : Nat) : Option Nat :=
  let power := point - Int.ofNat count
  let low := below interval power
  match contains interval power low, contains interval power (low + 1) with
  | true, true =>
    if distance interval power (low + 1) < distance interval power low then some (low + 1)
    else some low
  | true, false => some low
  | false, true => some (low + 1)
  | false, false => none

/-- Drop the zeros at the end of a number. -/
def dropZeros (n : Nat) : Nat :=
  if n = 0 then 0 else if n % 10 = 0 then dropZeros (n / 10) else n
termination_by n
decreasing_by omega

/-- Digits without zeros at the end; a carry into a further digit moves the point. -/
def Digits.tidy (digits count : Nat) (point : Int) : Digits where
  digits := dropZeros digits
  point := point + (Int.ofNat (digitCount digits) - Int.ofNat count)

/-- **The shortest decimal** that reads back as `mantissa * 2 ^ exponent`; seventeen digits always
do. -/
def shortest (mantissa : Nat) (exponent : Int) : Digits :=
  let interval := Interval.of mantissa exponent
  let point := pointOf interval
  match (List.range' 1 17).findSome? fun count =>
      (ofLength? interval point count).map fun digits => Digits.tidy digits count point with
  | some digits => digits
  | none => Digits.tidy (below interval (point - 17)) 17 point

end CodeClones.Decimal
