import CodeClones.Index.Basic

/-!
# Index/Query — the candidates for one signature

The documents that share a bucket with a signature in some band, other than the document the
signature belongs to.  A wider search also looks into the buckets that a small change of the
signature would reach.
-/

namespace CodeClones.Index

/-- Document numbers in ascending order, each once. -/
def ascendingIds (ids : List DocumentId) : List DocumentId :=
  Order.ascending (fun a b => decide (a ≤ b)) ids

/-- The documents in the buckets of a signature, band by band. -/
def bucketMates (index : Index) (slots : Array UInt64) : List DocumentId :=
  (List.finRange index.split.bands).flatMap fun band =>
    (index.tables[band]).getD (Signature.bandHash index.split slots band) []

/-- **The candidates** in ascending order, without the signature's own document; none for a
signature that is too short. -/
def query (index : Index) (signature : Signature) : List DocumentId :=
  if index.accepts signature then
    (ascendingIds (index.bucketMates signature.slots)).filter fun id => id != signature.id
  else []

/-- The signature with a word added to the first row of a band. -/
def nudge (index : Index) (signature : Signature) (band : Nat) (delta : UInt64) : Signature :=
  { signature with slots := signature.slots.modify (band * index.split.rows) (· + delta) }

/-- The signatures reached by moving the first row of a band up or down by one, modulo
`2 ^ 64`. -/
def nudged (index : Index) (signature : Signature) (band : Nat) : List Signature :=
  [index.nudge signature band 1, index.nudge signature band 0xFFFFFFFFFFFFFFFF]

/-- **The candidates of a wider search** — also those of the signatures nudged in one of the first
`probes` bands. -/
def queryProbing (index : Index) (signature : Signature) (probes : Nat) : List DocumentId :=
  if index.accepts signature then
    let near := (List.range (Nat.min probes index.split.bands)).flatMap fun band =>
      (index.nudged signature band).flatMap index.query
    ascendingIds (index.query signature ++ near)
  else []

/-- Candidates with their similarity, most similar first, ties by number. -/
def scoredLe (a b : DocumentId × Float) : Bool :=
  if a.2 == b.2 then decide (a.1 ≤ b.1) else decide (b.2 < a.2)

/-- **The candidates scored** by their stored signatures, from a threshold on. -/
def queryScored (index : Index) (signature : Signature) (threshold : Float) :
    List (DocumentId × Float) :=
  ((index.query signature).filterMap fun id =>
    (index.signature? id).bind fun stored =>
      let similarity := (signature.overlap stored).toFloat
      if threshold ≤ similarity then some (id, similarity) else none).mergeSort scoredLe

end CodeClones.Index
