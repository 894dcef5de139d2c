import CodeClones.Sketch.Signature

/-!
# Sketch/Collection — the signatures of many documents

The signatures of a list of documents, in its order, and the pairs among them that look similar
enough.
-/

namespace CodeClones

open Log Parallel

/-- Two documents with their similarity. -/
structure SimilarPair where
  first : DocumentId
  second : DocumentId
  similarity : Float
deriving DecidableEq, Repr

/-- **Most similar first**, ties by identifiers. -/
def SimilarPair.le (a b : SimilarPair) : Bool :=
  if a.similarity == b.similarity then
    if a.first = b.first then decide (a.second ≤ b.second) else decide (a.first < b.first)
  else decide (b.similarity < a.similarity)

def SimilarPair.sort (pairs : List SimilarPair) : List SimilarPair :=
  pairs.mergeSort SimilarPair.le

/-- The pair of two signatures if their estimated similarity reaches a threshold. -/
def Signature.similar? (threshold : Float) (a b : Signature) : Option SimilarPair :=
  let similarity := (a.overlap b).toFloat
  if threshold ≤ similarity then some ⟨a.id, b.id, similarity⟩ else none

/-- The similar pairs, each signature with all later ones. -/
def Signature.similarAmong (threshold : Float) : List Signature → List SimilarPair
  | [] => []
  | a :: rest => rest.filterMap (similar? threshold a) ++ similarAmong threshold rest

/-- **All similar pairs** of a list of signatures. -/
def Signature.similarPairs (threshold : Float) (signatures : List Signature) :
    List SimilarPair :=
  SimilarPair.sort (similarAmong threshold signatures)

namespace Sketcher

/-- One signature for each document. -/
def sketchAll (sketcher : Sketcher) (documents : List Document) : List Signature :=
  documents.map sketcher.sketchDocument

/-- What the shared loop over the documents says about itself. -/
def spreadReport (documents workers : Nat) : Entry where
  level := .debug
  text := s!"computing {documents} signatures on {workers} threads"

/-- **The same signatures from several workers**, above the threshold of the gate. -/
def sketchSpread (sketcher : Sketcher) (gate : Gate) (schedule : Schedule)
    (documents : List Document) : Logged (List Signature) :=
  if gate.spreadsDocuments documents.length then do
    let numbered := documents.toArray
    Logged.report (spreadReport documents.length gate.workers)
    return (schedule.documents documents.length).fill ⟨0, #[]⟩ fun index =>
      match numbered[index]? with
      | some document => sketcher.sketchDocument document
      | none => ⟨0, #[]⟩
  else return sketcher.sketchAll documents

end Sketcher

end CodeClones
