import CodeClones.Suffix.Layout

/-!
# Suffix/Induced — the order of all suffixes from the order of the valleys

Once the valleys are sorted, two sweeps over the slots sort everything else: from left to right the
falling predecessors of what is already placed, then from right to left the rising ones.  Every
access is checked: `induce?` answers `none` if a sweep were to leave the arrays, or if a slot were
left unfilled.
-/

namespace CodeClones.Suffix

/-- Write to an existing place; `none` outside the array. -/
def put? {α : Type} (entries : Array α) (i : Nat) (a : α) : Option (Array α) :=
  if h : i < entries.size then some (entries.set i a h) else none

/-- A sweep in progress: the slots filled so far and, for every symbol, the next place in its
bucket. -/
structure Sweep where
  slots : Array (Option Nat)
  cursor : Array Nat

namespace Sweep

/-- Put position `i` at the front of what is left of its bucket. -/
def putFront (layout : Layout) (sweep : Sweep) (i : Nat) : Option Sweep := do
  let ⟨slots, cursor⟩ := sweep
  let symbol ← layout.symbols[i]?
  let place ← cursor[symbol]?
  let slots ← put? slots place (some i)
  let cursor ← put? cursor symbol (place + 1)
  return ⟨slots, cursor⟩

/-- Put position `i` at the back of what is left of its bucket.  The place is counted down from the
start of the next bucket. -/
def putBack (layout : Layout) (sweep : Sweep) (i : Nat) : Option Sweep := do
  let ⟨slots, cursor⟩ := sweep
  let symbol ← layout.symbols[i]?
  match ← cursor[symbol + 1]? with
  | 0 => none
  | place + 1 =>
    let slots ← put? slots place (some i)
    let cursor ← put? cursor (symbol + 1) place
    return ⟨slots, cursor⟩

/-- Look at one slot; if it holds a position whose predecessor falls, put that predecessor at the
front of its bucket. -/
def visitFalling (layout : Layout) (sweep : Sweep) (slot : Nat) : Option Sweep := do
  match ← sweep.slots[slot]? with
  | none => return sweep
  | some 0 => return sweep
  | some (i + 1) =>
    match ← layout.rises[i]? with
    | true => return sweep
    | false => sweep.putFront layout i

/-- Look at one slot; if it holds a position whose predecessor rises, put that predecessor at the
back of its bucket. -/
def visitRising (layout : Layout) (sweep : Sweep) (slot : Nat) : Option Sweep := do
  match ← sweep.slots[slot]? with
  | none => return sweep
  | some 0 => return sweep
  | some (i + 1) =>
    match ← layout.rises[i]? with
    | true => sweep.putBack layout i
    | false => return sweep

end Sweep

/-- **Induced sorting** — seed the rising parts with `seeds`, sweep right for the falling positions
and left for the rising ones. -/
def induce? (layout : Layout) (seeds : List Nat) : Option (Array Nat) := do
  let size := layout.symbols.size
  let seeded ← seeds.foldlM (Sweep.putFront layout) ⟨Array.replicate size none, layout.middles⟩
  let started ← Sweep.putFront layout ⟨seeded.slots, layout.heads⟩ (size - 1)
  let fallen ← (List.range size).foldlM (Sweep.visitFalling layout) started
  let risen ← (List.range size).reverse.foldlM (Sweep.visitRising layout)
    ⟨fallen.slots, layout.heads⟩
  risen.slots.mapM id

end CodeClones.Suffix
