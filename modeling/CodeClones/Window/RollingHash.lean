import CodeClones.Text.Bytes

/-!
# Window/RollingHash — hashing every window of a sequence

A window of values is hashed as a polynomial modulo a prime.  Moving the window by one place drops
the highest term and appends a new lowest one, so the next hash follows from the last in constant
time.  The prime has 31 bits: no product or sum here exceeds 64.
-/

namespace CodeClones

/-- `base ^ exponent` modulo `modulus`, by repeated squaring. -/
def powMod (base exponent modulus : Nat) : Nat :=
  if exponent = 0 then 1 % modulus
  else
    let half := powMod (base * base % modulus) (exponent / 2) modulus
    if exponent % 2 = 0 then half else half * base % modulus
termination_by exponent

/-- The hashing of windows of a fixed width. -/
structure RollingHash where
  width : Nat
  /-- The power of the base that belongs to the first value of a window. -/
  topPower : UInt64

namespace RollingHash

def modulus : UInt64 := 1000000007

def base : UInt64 := 31

/-- Append one value. -/
def append (hash value : UInt64) : UInt64 :=
  (hash * base + value) % modulus

/-- The hash of a sequence of values. -/
def ofValues (values : List UInt64) : UInt64 :=
  values.foldl append 0

/-- The hash of a text: that of its bytes. -/
def ofBytes (bytes : List UInt8) : UInt64 :=
  ofValues (bytes.map UInt8.toUInt64)

def ofText (text : String) : UInt64 :=
  ofBytes (Text.bytes text)

def ofWidth (width : Nat) : RollingHash where
  width := width
  topPower := UInt64.ofNat (powMod base.toNat (width - 1) modulus.toNat)

/-- The share of the first value of a window in its hash. -/
def share (rolling : RollingHash) (value : UInt64) : UInt64 :=
  value * rolling.topPower % modulus

/-- **Move the window by one** — drop the first value, append the next. -/
def roll (rolling : RollingHash) (hash outgoing incoming : UInt64) : UInt64 :=
  append ((hash + modulus - rolling.share outgoing) % modulus) incoming

/-- The hash of the window at a place, computed anew. -/
def windowAt (rolling : RollingHash) (values : List UInt64) (start : Nat) : UInt64 :=
  ofValues ((values.drop start).take rolling.width)

/-- The hashes after `hash` while the window moves on. -/
def rollOn (rolling : RollingHash) (hash : UInt64) : List UInt64 → List UInt64 → List UInt64
  | outgoing :: outs, incoming :: ins =>
    let next := rolling.roll hash outgoing incoming
    next :: rollOn rolling next outs ins
  | _, _ => []

/-- **The hashes of all windows** from left to right.  There are none if the sequence is shorter
than the window, and an empty window does not move. -/
def windows (rolling : RollingHash) (values : List UInt64) : List UInt64 :=
  if values.length < rolling.width then []
  else
    let first := rolling.windowAt values 0
    if rolling.width = 0 then [first]
    else first :: rolling.rollOn first values (values.drop rolling.width)

end RollingHash

end CodeClones
