import Std.Data.HashSet

/-!
# Similarity/Overlap — similarity as a count out of a total

Every similarity here is a quotient of two counts.  An `Overlap` keeps the counts; its `score` is
the quotient in whatever numbers a `Scoring` provides.  The program scores in double precision;
exact rational numbers are another choice.
-/

namespace CodeClones

/-- So many out of so many. -/
structure Overlap where
  shared : Nat
  total : Nat
deriving DecidableEq, Repr

/-- The arithmetic that scores need. -/
class Scoring (S : Type) where
  zero : S
  one : S
  quotient : Nat → Nat → S
  add : S → S → S
  divide : S → Nat → S
  less : S → S → Bool

instance : Scoring Float where
  zero := 0
  one := 1
  quotient shared total := Float.ofNat shared / Float.ofNat total
  add a b := a + b
  divide a count := a / Float.ofNat count
  less a b := decide (a < b)

namespace Overlap

variable {S : Type} [Scoring S]

/-- **The score** — the shared part of the total, zero if there is nothing to share. -/
def score (overlap : Overlap) : S :=
  if overlap.total = 0 then Scoring.zero else Scoring.quotient overlap.shared overlap.total

/-- The score in double precision. -/
def toFloat (overlap : Overlap) : Float :=
  overlap.score

/-- The mean of some scores, summed from the left; zero if there are none. -/
def mean (overlaps : List Overlap) : S :=
  if overlaps.isEmpty then Scoring.zero
  else Scoring.divide (overlaps.foldl (fun sum o => Scoring.add sum o.score) Scoring.zero)
    overlaps.length

/-- How many entries two ascending lists share. -/
def commonCount : List UInt64 → List UInt64 → Nat
  | [], _ => 0
  | _ :: _, [] => 0
  | a :: as, b :: bs =>
    if a = b then commonCount as bs + 1
    else if a < b then commonCount as (b :: bs)
    else commonCount (a :: as) bs
termination_by as bs => as.length + bs.length

/-- **Jaccard similarity of two ascending lists** — the common entries out of the entries of
either. -/
def ofAscending (as bs : List UInt64) : Overlap where
  shared := commonCount as bs
  total := as.length + bs.length - commonCount as bs

/-- How many entries of the smaller set are in the larger one. -/
def commonMembers {α : Type} [BEq α] [Hashable α] (as bs : Std.HashSet α) : Nat :=
  if as.size ≤ bs.size then as.toList.countP bs.contains else bs.toList.countP as.contains

/-- Jaccard similarity of two sets. -/
def ofSets {α : Type} [BEq α] [Hashable α] (as bs : Std.HashSet α) : Overlap where
  shared := commonMembers as bs
  total := as.size + bs.size - commonMembers as bs

end Overlap

/-- **Into the unit interval** — what is not below one, also what is not a number, becomes one; what
is not above zero becomes zero. -/
def clampUnit (x : Float) : Float :=
  let top := if x < 1 then x else 1
  if 0 < top then top else 0

end CodeClones
