import CodeClones.Suffix.Order

/-!
# Suffix/Layout — types, valleys and buckets

The preparation for induced sorting.  A position *rises* if its suffix precedes the suffix one
position further on, otherwise it *falls* (the S- and L-types); the last position falls.  A *valley*
is a rising position after a falling one (an LMS position).  In the sorted order the suffixes that
start with one symbol form a contiguous *bucket*, in which the falling ones come first.
-/

namespace CodeClones.Suffix

/-- One step of `rising` from the right: the symbol joins with the type it has. -/
def riseStep (symbol : Nat) (later : List (Nat × Bool)) : List (Nat × Bool) :=
  match later with
  | [] => [(symbol, false)]
  | (next, rises) :: _ =>
    (symbol, if symbol = next then rises else decide (symbol < next)) :: later

/-- **The type of every position** — decided by the next differing symbol to the right. -/
def rising (symbols : List Nat) : List Bool :=
  (symbols.foldr riseStep []).map Prod.snd

/-- Is the position a rising one that follows a falling one? -/
def isValley (rises : Array Bool) (i : Nat) : Bool :=
  decide (0 < i) && rises[i - 1]? == some false && rises[i]? == some true

/-- The valleys in the order of the text. -/
def valleys (rises : Array Bool) : List Nat :=
  (List.range rises.size).filter (isValley rises)

/-- How often each symbol up to `top` occurs. -/
def tally (top : Nat) (symbols : List Nat) : List Nat :=
  (symbols.foldl (fun counts symbol => counts.modify symbol (· + 1))
    (Array.replicate (top + 1) 0)).toList

/-- The running totals before each entry, starting from `total`. -/
def startsFrom : Nat → List Nat → List Nat
  | _, [] => []
  | total, count :: counts => total :: startsFrom (total + count) counts

theorem length_startsFrom (total : Nat) (counts : List Nat) :
    (startsFrom total counts).length = counts.length := by
  induction counts generalizing total with
  | nil => rfl
  | cons count counts ih => simp only [startsFrom, List.length_cons, ih]

/-- A sequence with its types and the borders of its buckets. -/
structure Layout where
  symbols : Array Nat
  rises : Array Bool
  /-- Where the bucket of each symbol starts. -/
  heads : Array Nat
  /-- Where the rising part of the bucket of each symbol starts. -/
  middles : Array Nat

/-- **The layout of a sequence** over the symbols `0, …, top`. -/
def Layout.ofSymbols (symbols : Array Nat) (top : Nat) : Layout :=
  let rises := rising symbols.toList
  let heads := startsFrom 0 (tally top symbols.toList)
  let falling := ((symbols.toList.zip rises).filter fun entry => !entry.2).map Prod.fst
  { symbols := symbols
    rises := rises.toArray
    heads := heads.toArray
    middles := (List.zipWith (· + ·) heads (tally top falling)).toArray }

end CodeClones.Suffix
