import CodeClones.Index.Candidates

/-!
# Verify/Pair — deciding whether two documents are clones

A candidate pair is verified by its documents: both must be known, they must not overlap in lines of
one file, and the exact similarity of their shingles must reach a minimum.
-/

namespace CodeClones

/-- Documents by number. -/
abbrev DocumentTable := Std.HashMap DocumentId Document

/-- The table of some documents; the last one of a number counts. -/
def DocumentTable.ofList (documents : List Document) : DocumentTable :=
  documents.foldl (fun table document => table.insert document.id document) ∅

namespace Document

/-- Do two documents share a line of one file? -/
def overlapsInFile (a b : Document) : Bool :=
  a.file == b.file && !(decide (a.endLine < b.startLine) || decide (b.endLine < a.startLine))

/-- The exact overlap of the shingles of two documents. -/
def overlap (a b : Document) : Overlap :=
  Overlap.ofAscending a.hashes b.hashes

end Document

/-- Two documents found to be clones. -/
structure VerifiedPair where
  first : Document
  second : Document
  similarity : Float
deriving DecidableEq, Repr

/-- The order by numbers. -/
def VerifiedPair.le (a b : VerifiedPair) : Bool :=
  if a.first.id = b.first.id then decide (a.second.id ≤ b.second.id)
  else decide (a.first.id < b.first.id)

def VerifiedPair.sort (pairs : List VerifiedPair) : List VerifiedPair :=
  pairs.mergeSort VerifiedPair.le

/-- The least similarity of clones, in the unit interval. -/
structure Verifier where
  minimum : Float
deriving DecidableEq, Repr

namespace Verifier

def ofMinimum (minimum : Float) : Verifier where
  minimum := clampUnit minimum

/-- **Verify one pair.** -/
def verify? (verifier : Verifier) (documents : DocumentTable) (pair : DocumentPair) :
    Option VerifiedPair :=
  match documents[pair.first]?, documents[pair.second]? with
  | some a, some b =>
    if a.overlapsInFile b then none
    else
      let similarity := (a.overlap b).toFloat
      if similarity < verifier.minimum then none else some ⟨a, b, similarity⟩
  | _, _ => none

/-- **Verify some pairs** in order; the result is sorted by numbers. -/
def verifyAll (verifier : Verifier) (documents : DocumentTable) (pairs : List DocumentPair) :
    List VerifiedPair :=
  VerifiedPair.sort (pairs.filterMap (verifier.verify? documents))

end Verifier

/-- The similarity of a candidate pair: exact if that is asked for and both documents are known,
otherwise estimated by the stored signatures. -/
def Index.rescore? (index : Index) (documents : DocumentTable) (threshold : Float)
    (exactly : Bool) (pair : DocumentPair) : Option SimilarPair := do
  let a ← index.signature? pair.first
  let b ← index.signature? pair.second
  let overlap :=
    match exactly, documents[pair.first]?, documents[pair.second]? with
    | true, some x, some y => x.overlap y
    | _, _, _ => a.overlap b
  let similarity := overlap.toFloat
  if threshold ≤ similarity then some ⟨pair.first, pair.second, similarity⟩ else none

/-- **Rescored candidates** — those that reach the threshold, most similar first. -/
def Index.rescore (index : Index) (documents : DocumentTable) (threshold : Float)
    (exactly : Bool) (pairs : List DocumentPair) : List SimilarPair :=
  SimilarPair.sort (pairs.filterMap (index.rescore? documents threshold exactly))

end CodeClones
