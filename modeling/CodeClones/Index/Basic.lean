import CodeClones.Index.Split
import CodeClones.Sketch.Collection
import Std.Data.HashMap

/-!
# Index/Basic — signatures in buckets

The index keeps every signature under its document's number and, for each band, a table of buckets:
the numbers of the documents by the hash of their slots in that band.  Documents that share a bucket
are candidates for being similar.  The last accepted signature of a number counts; signatures that
are too short are not accepted.
-/

namespace CodeClones

open Log

/-- The buckets of one band. -/
abbrev BandTable := Std.HashMap UInt64 (List DocumentId)

namespace BandTable

/-- Add a document at the end of a bucket. -/
def add (table : BandTable) (hash : UInt64) (id : DocumentId) : BandTable :=
  table.insert hash (table.getD hash [] ++ [id])

/-- Take a document out of a bucket; an empty bucket disappears. -/
def remove (table : BandTable) (hash : UInt64) (id : DocumentId) : BandTable :=
  match table[hash]? with
  | none => table
  | some ids =>
    let left := ids.filter fun other => other != id
    if left.isEmpty then table.erase hash else table.insert hash left

end BandTable

/-- The slots of one band. -/
def Signature.bandSlots (split : Split) (slots : Array UInt64) (band : Nat) : List UInt64 :=
  (slots.extract (band * split.rows) (band * split.rows + split.rows)).toList

/-- **The hash of a band** — FNV-1a over its slots as words. -/
def Signature.bandHash (split : Split) (slots : Array UInt64) (band : Nat) : UInt64 :=
  Hash.absorbWords Hash.basis (bandSlots split slots band)

structure Index where
  split : Split
  tables : Vector BandTable split.bands
  signatures : Std.HashMap DocumentId Signature

namespace Index

/-- The index without signatures. -/
def empty (split : Split) : Index where
  split := split
  tables := Vector.replicate split.bands ∅
  signatures := ∅

/-- The empty index for signatures of `slots` slots and a threshold. -/
def forThreshold (slots : Nat) (threshold : Float) : Index :=
  empty (Split.forThreshold slots threshold)

def size (index : Index) : Nat :=
  index.signatures.size

/-- Has the signature a slot for every row of every band? -/
def accepts (index : Index) (signature : Signature) : Bool :=
  decide (index.split.required ≤ signature.size)

/-- The stored signature of a document. -/
def signature? (index : Index) (id : DocumentId) : Option Signature :=
  index.signatures[id]?

/-- Take a stored signature out of the buckets of all its bands. -/
def unfile (index : Index) (signature : Signature) : Index :=
  { index with
    tables := index.tables.mapFinIdx fun band table _ =>
      BandTable.remove table (Signature.bandHash index.split signature.slots band) signature.id }

/-- Put a signature into the bucket of each of its bands. -/
def file (index : Index) (signature : Signature) : Index :=
  { index with
    tables := index.tables.mapFinIdx fun band table _ =>
      BandTable.add table (Signature.bandHash index.split signature.slots band) signature.id }

/-- Store a signature under its number. -/
def store (index : Index) (signature : Signature) : Index :=
  { index with signatures := index.signatures.insert signature.id signature }

/-- **Insert a signature** — what was stored under its number is replaced, in the buckets too; a
signature that is too short is ignored. -/
def insert (index : Index) (signature : Signature) : Index :=
  if index.accepts signature then
    match index.signature? signature.id with
    | some old => ((index.unfile old).store signature).file signature
    | none => (index.store signature).file signature
  else index

/-- What is said about a signature that is not accepted. -/
def shortReport (index : Index) (signature : Signature) : Entry where
  level := .debug
  text := s!"signature {signature.id.toNat} too short ({signature.size} < " ++
    s!"{index.split.required}), skipped"

/-- Insert, and report a signature that is too short. -/
def insertLogged (index : Index) (signature : Signature) : Logged Index :=
  if index.accepts signature then return index.insert signature
  else do
    Logged.report (index.shortReport signature)
    return index

/-- Insert some signatures in order. -/
def insertAll (index : Index) (signatures : List Signature) : Logged Index :=
  signatures.foldlM insertLogged index

/-- Forget everything but the split. -/
def clear (index : Index) : Index :=
  empty index.split

/-- Figures about an index. -/
structure Statistics where
  signatures : Nat
  bands : Nat
  rows : Nat
  buckets : Nat
  bucketEntries : Nat
  largestBucket : Nat
deriving DecidableEq, Repr

/-- The mean number of documents in a bucket. -/
def Statistics.meanBucket (statistics : Statistics) : Float :=
  (Overlap.mk statistics.bucketEntries statistics.buckets).toFloat

/-- The numbers of documents in the buckets, band by band. -/
def bucketSizes (index : Index) : List Nat :=
  index.tables.toList.flatMap fun table => table.toList.map fun bucket => bucket.2.length

def statistics (index : Index) : Statistics where
  signatures := index.size
  bands := index.split.bands
  rows := index.split.rows
  buckets := index.bucketSizes.length
  bucketEntries := index.bucketSizes.foldl (· + ·) 0
  largestBucket := index.bucketSizes.foldl Nat.max 0

end Index

end CodeClones
