import CodeClones.Order.Lexical
import CodeClones.Repeat.CommonPrefix

/-!
# Repeat/Group — the repeats of a text

A run of large common lengths is a set of positions whose suffixes share their first symbols: a
repeat.  `maximal` lists all of them; `selected` keeps a small set that still covers the text, by
taking longer repeats first and dropping what is mostly covered already.
-/

namespace CodeClones

/-- Positions that share their first `length` symbols, with the range `[first, last)` they fill in
the sorted order of suffixes. -/
structure Repeat where
  positions : List Nat
  length : Nat
  first : Nat
  last : Nat
deriving DecidableEq, Repr

/-- A sorted order of suffixes with the common lengths of neighbours. -/
structure RepeatTable where
  order : Array Nat
  lengths : Array Nat

namespace RepeatTable

def ofSuffixes (suffixes : SuffixArray) : RepeatTable where
  order := suffixes.order
  lengths := Repeat.commonLengths suffixes.text suffixes.order

/-- The places, from the second on, whose common length reaches a threshold. -/
def reaching (table : RepeatTable) (threshold : Int) : List Nat :=
  (table.lengths.toList.zipIdx.drop 1).filterMap fun (length, place) =>
    if threshold ≤ Int.ofNat length then some place else none

/-- The longest runs of entries that reach `least`, each with the index of its first entry; the
list starts at index `start`. -/
def runs (least start : Nat) : List Nat → List (Nat × List Nat)
  | [] => []
  | entry :: entries =>
    if entry < least then runs least (start + 1) entries
    else
      let more := entries.takeWhile fun e => decide (least ≤ e)
      (start, entry :: more)
        :: runs least (start + 1 + more.length) (entries.dropWhile fun e => decide (least ≤ e))
termination_by entries => entries.length
decreasing_by
  · simp
  · have := (List.dropWhile_suffix (l := entries) fun e => decide (least ≤ e)).length_le
    simp only [List.length_cons]
    omega

/-- The repeat of a run: the suffixes of the run and the one before it, which share as much as the
smallest entry of the run. -/
def ofRun (table : RepeatTable) (start : Nat) (run : List Nat) : Repeat where
  positions := (table.order.extract (start - 1) (start + run.length)).toList.mergeSort
    fun a b => decide (a ≤ b)
  length := run.min?.getD 0
  first := start - 1
  last := start + run.length

/-- **The regions** — the repeats of at least `least` symbols in the order of the suffixes; none for
a length that is not positive. -/
def regions (table : RepeatTable) (least : Int) : List Repeat :=
  if least ≤ 0 then []
  else (runs least.toNat 1 (table.lengths.toList.drop 1)).map fun (start, run) =>
    table.ofRun start run

/-- **All repeats** of at least `least` symbols, by position.  Runs do not touch, so no two repeats
have a position in common, and none has to give way to a longer one with the same positions. -/
def maximal (table : RepeatTable) (least : Int) : List Repeat :=
  (table.regions least).mergeSort fun a b =>
    Order.lexLe (fun x y => decide (x < y)) a.positions b.positions

end RepeatTable

namespace Repeat

/-- The positions covered by the occurrence at `position` in a text of `size` symbols. -/
def span (size length position : Nat) : List Nat :=
  List.range' position (min size (position + length) - position)

/-- Is at most half of the occurrence at `position` covered? -/
def isFreshAt (covered : Array Bool) (length position : Nat) : Bool :=
  let places := span covered.size length position
  decide (places.countP (fun p => covered[p]?.getD false) * 2 ≤ places.length)

/-- **A repeat adds something** if one of its occurrences is not mostly covered. -/
def isFresh (covered : Array Bool) (candidate : Repeat) : Bool :=
  candidate.positions.any (isFreshAt covered candidate.length)

/-- Mark every occurrence as covered. -/
def cover (covered : Array Bool) (chosen : Repeat) : Array Bool :=
  chosen.positions.foldl (fun covered position =>
    (span covered.size chosen.length position).foldl (fun c p => c.setIfInBounds p true) covered)
    covered

/-- Go through the candidates in order, keeping what adds something to what is kept before it. -/
def select (covered : Array Bool) : List Repeat → List Repeat
  | [] => []
  | candidate :: rest =>
    if isFresh covered candidate then candidate :: select (cover covered candidate) rest
    else select covered rest

end Repeat

/-- **The selected repeats** — longer ones first, ties in the order of the suffixes; a repeat is
dropped when every occurrence has more than half of its symbols covered by those kept before. -/
def RepeatTable.selected (table : RepeatTable) (least : Int) : List Repeat :=
  Repeat.select (Array.replicate table.lengths.size false)
    ((table.regions least).mergeSort fun a b => decide (b.length ≤ a.length))

end CodeClones
