import CodeClones.Decimal.Shortest

/-!
# Script/Value — the values that a script passes

A script hands over dynamic values: numbers are doubles, objects have named properties, and typed
arrays can also be read as raw bytes.  A property that is not there reads as `undefined`.
-/

namespace CodeClones.Script

inductive Value where
  | undefined
  | null
  | bool (value : Bool)
  | number (value : Float)
  | text (value : String)
  | list (items : List Value)
  | record (fields : List (String × Value))
  /-- An array of signed 32-bit integers. -/
  | int32s (items : List Int)
  /-- An array of doubles. -/
  | doubles (items : List Float)
  /-- A byte buffer. -/
  | buffer (bytes : List UInt8)

/-- The `count` low bytes of a number, the lowest one first. -/
def littleEndian (n : Nat) : Nat → List UInt8
  | 0 => []
  | count + 1 => UInt8.ofNat (n % 256) :: littleEndian (n / 256) count

/-- How a number is written: positionally while the point lies within 21 digits and at most six
zeros follow it, otherwise with an exponent; always with the fewest digits that read back. -/
def numberText (x : Float) : String :=
  match Exact.ofFloat x with
  | .notANumber => "NaN"
  | .infinite negative => if negative then "-Infinity" else "Infinity"
  | .finite _ 0 _ => "0"
  | .finite negative mantissa exponent =>
    let decimal := Decimal.shortest mantissa exponent
    let digits := Nat.toDigits 10 decimal.digits
    let count := Int.ofNat digits.length
    let sign := if negative then "-" else ""
    let zeros (n : Int) : List Char := List.replicate n.toNat '0'
    if count ≤ decimal.point ∧ decimal.point ≤ 21 then
      sign ++ String.ofList (digits ++ zeros (decimal.point - count))
    else if 0 < decimal.point ∧ decimal.point ≤ 21 then
      sign ++ String.ofList
        (digits.take decimal.point.toNat ++ '.' :: digits.drop decimal.point.toNat)
    else if -6 < decimal.point ∧ decimal.point ≤ 0 then
      sign ++ String.ofList ('0' :: '.' :: zeros (-decimal.point) ++ digits)
    else
      let power := decimal.point - 1
      let mark := if power < 0 then "e-" else "e+"
      let tail := digits.drop 1
      sign ++ String.ofList (digits.take 1 ++ (if tail.isEmpty then [] else '.' :: tail)) ++ mark
        ++ toString power.natAbs

namespace Value

/-- A property; `undefined` if the value has none of this name. -/
def property (value : Value) (key : String) : Value :=
  match value with
  | record fields => (fields.lookup key).getD undefined
  | _ => undefined

def isUndefined : Value → Bool
  | undefined => true
  | _ => false

/-- Lists, records, typed arrays and buffers are objects. -/
def isObject : Value → Bool
  | list _ => true
  | record _ => true
  | int32s _ => true
  | doubles _ => true
  | buffer _ => true
  | _ => false

/-- **The raw bytes** of a typed array or buffer, little-endian. -/
def rawBytes? : Value → Option (List UInt8)
  | int32s items =>
    some (items.flatMap fun n => littleEndian (n % Int.ofNat Exact.wordCount).toNat 4)
  | doubles items => some (items.flatMap fun x => littleEndian x.toBits.toNat 8)
  | buffer bytes => some bytes
  | _ => none

mutual

/-- **The text of a value** — the items of a list are joined by commas, and what is absent is empty
there. -/
def toText : Value → String
  | undefined => "undefined"
  | null => "null"
  | bool true => "true"
  | bool false => "false"
  | number x => numberText x
  | text s => s
  | list items => String.intercalate "," (itemTexts items)
  | record _ => "[object Object]"
  | int32s items => String.intercalate "," (items.map toString)
  | doubles items => String.intercalate "," (items.map numberText)
  | buffer bytes => String.intercalate "," (bytes.map fun b => toString b.toNat)

/-- The texts of the items of a list. -/
def itemTexts : List Value → List String
  | [] => []
  | undefined :: items => "" :: itemTexts items
  | null :: items => "" :: itemTexts items
  | item :: items => toText item :: itemTexts items

end

/-- A natural number as a value. -/
def ofNat (n : Nat) : Value :=
  number (Float.ofNat n)

def ofInt (n : Int) : Value :=
  number (Float.ofInt n)

/-- The integer that a number is, if it lies between two bounds. -/
def integerIn? (value : Value) (least greatest : Int) : Option Int :=
  match value with
  | number x =>
    match Exact.integer? x with
    | some n => if least ≤ n ∧ n ≤ greatest then some n else none
    | none => none
  | _ => none

end Value

end CodeClones.Script
