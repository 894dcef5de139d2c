import CodeClones.Suffix.Induced

/-!
# Suffix/Reduction — naming the stretches between valleys

The stretch of a valley runs to the next valley, both ends included, or to the end of the sequence.
Numbering the stretches by their order, equal ones alike, gives a sequence at most half as long
whose sorted suffixes are the sorted valleys of the longer one.
-/

namespace CodeClones.Suffix

/-- For every position the place it has in a list of positions, if it is listed. -/
def placesIn (size : Nat) (positions : List Nat) : Array (Option Nat) :=
  positions.zipIdx.foldl (fun places entry => places.setIfInBounds entry.1 (some entry.2))
    (Array.replicate size none)

/-- Where the stretch of the `k`-th valley ends: at the next valley, or past the last symbol. -/
def stretchEnd (size : Nat) (valleys : Array Nat) (k : Nat) : Nat :=
  valleys[k + 1]?.getD size

/-- **Are two stretches of equal extent equal?** — symbol by symbol from `l` and `r` until `l`
reaches `stop`, then the end symbols; nothing equals the stretch that runs to the end of the
sequence.  `none` if a symbol beyond the end were needed. -/
def sameStretch? (symbols : Array Nat) (l r stop : Nat) : Option Bool :=
  if l < stop then do
    let a ← symbols[l]?
    let b ← symbols[r]?
    if a = b then sameStretch? symbols (l + 1) (r + 1) stop else return false
  else if l = symbols.size then return false
  else do
    let a ← symbols[l]?
    let b ← symbols[r]?
    return a == b
termination_by stop - l

/-- Naming in progress: the valley named last, its name, and the names by valley number. -/
structure Naming where
  last : Nat
  name : Nat
  names : Array Nat

/-- Name the next valley: the same name if its stretch equals that of the last one, otherwise the
next name. -/
def Naming.next? (symbols : Array Nat) (valleys : Array Nat) (places : Array (Option Nat))
    (naming : Naming) (valley : Nat) : Option Naming := do
  let ⟨last, name, names⟩ := naming
  let k ← places[last]? >>= id
  let k' ← places[valley]? >>= id
  let stop := stretchEnd symbols.size valleys k
  let stop' := stretchEnd symbols.size valleys k'
  let same ← if stop - last = stop' - valley then sameStretch? symbols last valley stop
    else some false
  let name' := if same then name else name + 1
  let names ← put? names k' name'
  return ⟨valley, name', names⟩

/-- **The reduced sequence** — the names of the valleys in the order of the text, together with the
largest name; `sorted` lists the valleys by the order of their stretches. -/
def reduce? (symbols : Array Nat) (valleys : Array Nat) (places : Array (Option Nat))
    (sorted : List Nat) : Option (Array Nat × Nat) := do
  match sorted with
  | [] => none
  | first :: rest =>
    let k ← places[first]? >>= id
    let names ← put? (Array.replicate valleys.size 0) k 0
    let naming ← rest.foldlM (Naming.next? symbols valleys places) ⟨first, 0, names⟩
    return (naming.names, naming.name)

end CodeClones.Suffix
