import CodeClones.Verify.Pair

/-!
# Detect/Pairwise — similar documents without grouping

`SimilarDocuments` finds the similar pairs among given documents by way of an index.  `TextComparer`
compares two texts directly.
-/

namespace CodeClones.Detect

open Log

/-- Sketching, indexing and scoring with one threshold. -/
structure SimilarDocuments where
  sketcher : Sketcher
  split : Nat × Nat
  threshold : Float

namespace SimilarDocuments

/-- The band split is derived from the threshold. -/
def of (slots : Nat) (threshold : Float) (seed : UInt64) : SimilarDocuments where
  sketcher := Sketcher.ofSeed slots seed
  split := Split.bestFor slots threshold
  threshold := threshold

/-- What a search says about itself. -/
def report (split : Nat × Nat) (documents candidates found : Nat) : Entry where
  level := .debug
  text := s!"pipeline {split.1}x{split.2}: {documents} documents, {candidates} candidates, " ++
    s!"{found} similar pairs"

/-- **The similar pairs**, most similar first; scored exactly if that is asked for, otherwise by
signature. -/
def pairs (search : SimilarDocuments) (documents : List Document) (exactly : Bool) :
    Logged (List SimilarPair) := do
  let index ← (Index.empty (Split.ofCounts search.split.1 search.split.2)).insertAll
    (search.sketcher.sketchAll documents)
  let candidates := index.candidatePairs
  let found := index.rescore (DocumentTable.ofList documents) search.threshold exactly candidates
  Logged.report (report search.split documents.length candidates.length found.length)
  return found

end SimilarDocuments

/-- How two texts are compared. -/
structure TextComparer where
  shingler : Shingler
  sketcher : Sketcher

/-- A text with the kinds of its tokens. -/
structure KindedText where
  tokens : List String
  kinds : List TokenKind

namespace TextComparer

def hashes (comparer : TextComparer) (text : KindedText) : List UInt64 :=
  comparer.shingler.hashes text.tokens text.kinds

/-- **The estimated overlap** of two texts, by their signatures. -/
def estimated (comparer : TextComparer) (a b : KindedText) : Overlap :=
  (comparer.sketcher.sketch (comparer.hashes a) 0).overlap
    (comparer.sketcher.sketch (comparer.hashes b) 1)

/-- **The exact overlap** of the shingles of two texts. -/
def exact (comparer : TextComparer) (a b : KindedText) : Overlap :=
  Overlap.ofAscending (comparer.hashes a) (comparer.hashes b)

end TextComparer

end CodeClones.Detect
