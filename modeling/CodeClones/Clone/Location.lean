import Std.Data.HashMap

/-!
# Clone/Location — thinning out overlapping occurrences

Occurrences of a repeat in one file may overlap.  `thin` goes through them from left to right and
drops each one that lies to more than half within the last one kept in its file.
-/

namespace CodeClones

/-- An occurrence in a file; positions are those of the token stream, both ends included. -/
structure Location where
  file : Nat
  startLine : Int
  endLine : Int
  start : Int
  stop : Int
deriving DecidableEq, Repr

namespace Location

/-- The order of the scan: by file, then by start. -/
def le (a b : Location) : Bool :=
  if a.file = b.file then decide (a.start ≤ b.start) else decide (a.file < b.file)

/-- How many positions a location covers. -/
def extent (a : Location) : Int :=
  a.stop - a.start + 1

/-- How many positions two locations share. -/
def shared (a b : Location) : Int :=
  let first := if a.start < b.start then b.start else a.start
  let last := if b.stop < a.stop then b.stop else a.stop
  if 0 < last - first + 1 then last - first + 1 else 0

/-- Does `b` lie to more than half within `a`? -/
def crowds (a b : Location) : Bool :=
  decide (b.extent < a.shared b * 2)

/-- Scan on, knowing the last location kept in each file. -/
def thinFrom (kept : Std.HashMap Nat Location) : List Location → List Location
  | [] => []
  | location :: rest =>
    if (kept[location.file]?).any fun last => last.crowds location then thinFrom kept rest
    else location :: thinFrom (kept.insert location.file location) rest

/-- **Thinning** — sorted by file and start, without those crowded by the last one kept.  A single
location is never dropped. -/
def thin (locations : List Location) : List Location :=
  thinFrom ∅ (locations.mergeSort le)

end Location

end CodeClones
