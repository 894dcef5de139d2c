import CodeClones.Suffix.Array

/-!
# Suffix/Search — finding a pattern by binary search

The suffixes that start with a pattern are neighbours in the sorted order.  Two binary searches find
the ends of their range.
-/

namespace CodeClones.SuffixArray

/-- **A suffix against a pattern** — compared only as far as the pattern reaches; a suffix that ends
before the pattern does is smaller. -/
def compareAt (text : Array Int) (position : Nat) : List Int → Ordering
  | [] => .eq
  | symbol :: pattern =>
    match text[position]? with
    | none => .lt
    | some a =>
      if a = symbol then compareAt text (position + 1) pattern
      else if a < symbol then .lt
      else .gt

/-- How the suffix at a place of the sorted order compares with a pattern. -/
def compareRank (suffixes : SuffixArray) (pattern : List Int) (rank : Nat) : Option Ordering :=
  suffixes.order[rank]?.map fun position => compareAt suffixes.text position pattern

/-- **The range of a pattern** — first and one past the last place of the sorted order whose suffix
starts with the pattern; the empty pattern is not searched for. -/
def range (suffixes : SuffixArray) (pattern : List Int) : Nat × Nat :=
  if pattern.isEmpty || suffixes.order.isEmpty then (0, 0)
  else
    let first := Order.boundary (fun k => suffixes.compareRank pattern k == some .lt) 0
      suffixes.size
    let last := Order.boundary (fun k => suffixes.compareRank pattern k == some .eq) first
      (suffixes.size - first)
    (first, last)

/-- Where a pattern occurs, in ascending order. -/
def occurrences (suffixes : SuffixArray) (pattern : List Int) : List Nat :=
  let (first, last) := suffixes.range pattern
  (suffixes.order.extract first last).toList.mergeSort fun a b => decide (a ≤ b)

end CodeClones.SuffixArray
