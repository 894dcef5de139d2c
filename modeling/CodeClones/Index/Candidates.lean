import CodeClones.Index.Query
import CodeClones.Parallel.Gate
import CodeClones.Parallel.Workload

/-!
# Index/Candidates — all pairs that share a bucket

The candidate pairs of the whole index.  They can be listed at once, by one worker or by several, or
handed over one by one in the order in which buckets are met; every way gives the same pairs, each
once.
-/

namespace CodeClones

open Parallel

/-- Two document numbers, the smaller one first. -/
structure DocumentPair where
  first : DocumentId
  second : DocumentId
deriving DecidableEq, Repr

namespace DocumentPair

/-- **The pair of two numbers**, in either order. -/
def of (a b : DocumentId) : DocumentPair where
  first := if a < b then a else b
  second := if a < b then b else a

def less (a b : DocumentPair) : Bool :=
  if a.first = b.first then decide (a.second < b.second) else decide (a.first < b.first)

def le (a b : DocumentPair) : Bool :=
  !less b a

/-- The pair as one word, with the first number in the upper half. -/
def word (pair : DocumentPair) : UInt64 :=
  pair.first.toUInt64 <<< 32 ||| pair.second.toUInt64

instance : Hashable DocumentPair where
  hash := word

end DocumentPair

/-- **Hand over some entries one by one** until the receiver declines; the receiver keeps a state,
and the entries handed over are counted. -/
def handOver {σ α : Type} (receive : σ → α → σ × Bool) (state : σ) : List α → σ × Nat
  | [] => (state, 0)
  | a :: rest =>
    let answer := receive state a
    if answer.2 then
      let later := handOver receive answer.1 rest
      (later.1, later.2 + 1)
    else (answer.1, 1)

/-- The first occurrences in a list, leaving out what was seen before. -/
def firstSights {α : Type} [BEq α] [Hashable α] (seen : Std.HashSet α) : List α → List α
  | [] => []
  | a :: rest =>
    if seen.contains a then firstSights seen rest else a :: firstSights (seen.insert a) rest

namespace Index

/-- The pairs of different documents within a bucket. -/
def bucketPairs : List DocumentId → List DocumentPair
  | [] => []
  | id :: ids =>
    (ids.filter fun other => other != id).map (DocumentPair.of id) ++ bucketPairs ids

/-- The pairs of a band in the order in which its table is traversed. -/
def bandPairs (index : Index) (band : Nat) : List DocumentPair :=
  match index.tables[band]? with
  | some table => table.toList.flatMap fun bucket => bucketPairs bucket.2
  | none => []

/-- Pairs in ascending order, each once. -/
def ascendingPairs (pairs : List DocumentPair) : List DocumentPair :=
  Order.ascending DocumentPair.le pairs

/-- **The candidate pairs** in ascending order. -/
def candidatePairs (index : Index) : List DocumentPair :=
  ascendingPairs ((List.range index.split.bands).flatMap index.bandPairs)

/-- **The candidate pairs from several workers** — the bands are shared out and the lists of the
workers joined. -/
def candidatePairsSpread (index : Index) (load : Workload index.split.bands) :
    List DocumentPair :=
  ascendingPairs (load.gather index.bandPairs)

/-- The candidate pairs under a gate. -/
def candidatePairsUnder (index : Index) (gate : Gate) (schedule : Schedule) :
    List DocumentPair :=
  if gate.spreadsDocuments index.size then
    index.candidatePairsSpread (schedule.bands index.split.bands)
  else index.candidatePairs

/-- The buckets of each band in some order of traversal. -/
abbrev Traversal := List (List (UInt64 × List DocumentId))

/-- The traversal that the tables themselves give. -/
def traversal (index : Index) : Traversal :=
  index.tables.toList.map fun table => table.toList

/-- The pairs met on a traversal, each when it is first met. -/
def pairsMet (traversal : Traversal) : List DocumentPair :=
  firstSights ∅ (traversal.flatMap fun band => band.flatMap fun bucket => bucketPairs bucket.2)

/-- **Hand over the candidate pairs** as they are met, until the receiver declines, and count
them. -/
def streamPairs {σ : Type} (traversal : Traversal) (receive : σ → DocumentPair → σ × Bool)
    (state : σ) : σ × Nat :=
  handOver receive state (pairsMet traversal)

end Index

end CodeClones
