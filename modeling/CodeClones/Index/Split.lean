import CodeClones.Order.Positive

/-!
# Index/Split — cutting signatures into bands

A split cuts a signature into `bands` bands of `rows` slots.  Two documents of similarity `s` agree
in a whole band with probability `1 - (1 - s ^ rows) ^ bands`, which turns steep near
`(1 / bands) ^ (1 / rows)`.
-/

namespace CodeClones

/-- So many bands of so many rows, at least one of each. -/
structure Split where
  bands : Nat
  rows : Nat
  bands_pos : 0 < bands
  rows_pos : 0 < rows

namespace Split

/-- Counts of zero are taken for one. -/
def ofCounts (bands rows : Nat) : Split where
  bands := Order.atLeastOne bands
  rows := Order.atLeastOne rows
  bands_pos := Order.atLeastOne_pos bands
  rows_pos := Order.atLeastOne_pos rows

/-- How many slots a signature must have. -/
def required (split : Split) : Nat :=
  split.bands * split.rows

/-- How far the turning point of a split lies from a threshold. -/
def error (threshold : Float) (bands rows : Nat) : Float :=
  Float.abs (Float.pow (1.0 / Float.ofNat bands) (1.0 / Float.ofNat rows) - threshold)

/-- The best split so far, and its error. -/
structure Choice where
  bands : Nat
  rows : Nat
  error : Float

/-- Try `bands` bands of as many rows as fit; a strictly smaller error is better. -/
def Choice.consider (error : Nat → Nat → Float) (slots : Nat) (best : Choice) (bands : Nat) :
    Choice :=
  let rows := slots / bands
  if error bands rows < best.error then ⟨bands, rows, error bands rows⟩ else best

/-- The first of the least errors over all splits of `slots` slots, under any measure of error. -/
def bestBy (error : Nat → Nat → Float) (slots : Nat) : Choice :=
  (List.range' 1 slots).foldl (Choice.consider error slots) ⟨1, slots, 1.0 / 0.0⟩

/-- **The split for a threshold** — bands and rows whose turning point is nearest to it, the fewest
bands among equals; no slots at all are split as one. -/
def bestFor (slots : Nat) (threshold : Float) : Nat × Nat :=
  if slots = 0 then (1, 1)
  else
    let best := bestBy (error threshold) slots
    (best.bands, best.rows)

/-- The split that an index for a threshold uses. -/
def forThreshold (slots : Nat) (threshold : Float) : Split :=
  ofCounts (bestFor slots threshold).1 (bestFor slots threshold).2

end Split

end CodeClones
