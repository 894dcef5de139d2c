import CodeClones.Shingle.Document
import CodeClones.Similarity.Overlap

/-!
# Sketch/Signature — minimum hashing

A signature keeps, for each of a fixed number of hash functions, the minimum over a set of hashes.
Two sets agree in a slot with a probability equal to their Jaccard similarity, so the share of equal
slots estimates it.  A slot of the empty set holds the largest word, `emptySlot`.
-/

namespace CodeClones

/-- The minima of a document. -/
structure Signature where
  id : DocumentId
  slots : Array UInt64
deriving DecidableEq, Repr

namespace Signature

/-- What a slot holds when there is nothing to take the minimum of. -/
def emptySlot : UInt64 := 0xFFFFFFFFFFFFFFFF

def size (signature : Signature) : Nat :=
  signature.slots.size

/-- **The estimated overlap** — equal slots out of all; none if the sizes differ. -/
def overlap (a b : Signature) : Overlap :=
  if a.size = b.size then
    { shared := (a.slots.toList.zip b.slots.toList).countP fun entry => entry.1 == entry.2
      total := a.size }
  else ⟨0, 0⟩

end Signature

/-- A hash function `x ↦ (scale * x + shift) mod p`. -/
structure Coefficients where
  scale : UInt64
  shift : UInt64
deriving DecidableEq, Repr

namespace Coefficients

/-- The smallest prime above `2 ^ 32`. -/
def prime : UInt64 := 4294967311

/-- **The value at a residue** — the product and the sum stay within 64 bits, because `scale` and
`shift` have 31 bits and a residue has 33. -/
def apply (c : Coefficients) (residue : UInt64) : UInt64 :=
  (c.scale * residue + c.shift) % prime

/-- Coefficients from a pair of draws: their top 31 bits, the scale made odd. -/
def ofDraws (a b : UInt64) : Coefficients where
  scale := (a >>> 33) ||| 1
  shift := b >>> 33

/-- Pair up a list of draws. -/
def ofPairs : List UInt64 → List Coefficients
  | a :: b :: rest => ofDraws a b :: ofPairs rest
  | _ => []

/-- The coefficients drawn from a seed. -/
def ofSeed (count : Nat) (seed : UInt64) : List Coefficients :=
  ofPairs (Hash.draws seed (2 * count))

end Coefficients

/-- A family of hash functions. -/
structure Sketcher where
  coefficients : List Coefficients
deriving DecidableEq, Repr

namespace Sketcher

/-- **The family of a seed** — the same seed gives the same functions. -/
def ofSeed (count : Nat) (seed : UInt64) : Sketcher where
  coefficients := Coefficients.ofSeed count seed

/-- A hash is spread over all bits before it is reduced. -/
def residue (hash : UInt64) : UInt64 :=
  Hash.mix hash % Coefficients.prime

/-- The smaller of a running minimum and the next value. -/
def lower (c : Coefficients) (least residue : UInt64) : UInt64 :=
  if c.apply residue < least then c.apply residue else least

/-- The minimum of one function over some residues. -/
def slot (residues : List UInt64) (c : Coefficients) : UInt64 :=
  residues.foldl (lower c) Signature.emptySlot

/-- **The signature of a set of hashes**, given as a list in any order, with or without
repetition. -/
def sketch (sketcher : Sketcher) (hashes : List UInt64) (id : DocumentId) : Signature :=
  let residues := hashes.map residue
  { id := id, slots := (sketcher.coefficients.map (slot residues)).toArray }

/-- The signature of a hash set. -/
def sketchSet (sketcher : Sketcher) (hashes : Std.HashSet UInt64) (id : DocumentId) : Signature :=
  sketcher.sketch hashes.toList id

/-- The signature of a document. -/
def sketchDocument (sketcher : Sketcher) (document : Document) : Signature :=
  sketcher.sketch document.hashes document.id

@[simp] theorem sketchDocument_id (sketcher : Sketcher) (document : Document) :
    (sketcher.sketchDocument document).id = document.id := rfl

theorem size_sketch (sketcher : Sketcher) (hashes : List UInt64) (id : DocumentId) :
    (sketcher.sketch hashes id).size = sketcher.coefficients.length := by
  simp [sketch, Signature.size]

end Sketcher

/-- The largest number of copies of one element that count. -/
def Sketcher.maxWeight : Nat := 10

/-- What two copies of an element differ by. -/
def Sketcher.variantStep : UInt64 := 2654435761

/-- The distinct copies of an element of some weight. -/
def Sketcher.variants (hash : UInt64) (weight : Nat) : List UInt64 :=
  (List.range (Nat.min weight maxWeight)).map fun copy =>
    hash + UInt64.ofNat copy * variantStep

/-- **The signature of a weighted set** — an element of weight `w` enters as `min w 10` copies, so
heavier elements hold the minimum more often. -/
def Sketcher.sketchWeighted (sketcher : Sketcher) (weights : Std.HashMap UInt64 Nat)
    (id : DocumentId) : Signature :=
  sketcher.sketch (weights.toList.flatMap fun entry => variants entry.1 entry.2) id

end CodeClones
