import CodeClones.Proofs.Index.Candidates
import CodeClones.Proofs.Index.Split
import CodeClones.Proofs.Sketch.Collection
import CodeClones.Proofs.Verify.Pair

/-!
# Proofs/Index/Documents — the index of the signatures of some documents

Where signatures are long enough, the last document of every number is stored
(`signature?_ofDocuments`).  If the numbers are distinct as well, two documents collide in the index
exactly if they share a bucket (`collides_ofDocuments_iff`).
-/

namespace CodeClones

variable {split : Split} {sketcher : Sketcher} {documents : List Document}

/-- **Two documents share a bucket** if their signatures have the same hash in some band. -/
def Sketcher.SharesBucket (sketcher : Sketcher) (split : Split) (x y : Document) : Prop :=
  ∃ band < split.bands, Signature.bandHash split (sketcher.sketchDocument x).slots band
    = Signature.bandHash split (sketcher.sketchDocument y).slots band

theorem Sketcher.SharesBucket.symm {x y : Document} (h : sketcher.SharesBucket split x y) :
    sketcher.SharesBucket split y x := by
  obtain ⟨band, hband, hhash⟩ := h
  exact ⟨band, hband, hhash.symm⟩

/-- **Signatures are long enough** for the split that is chosen for their number of slots. -/
theorem Sketcher.required_le_size {slots : Nat} (hslots : 0 < slots) (threshold : Float)
    (seed : UInt64) (x : Document) : (Split.forThreshold slots threshold).required
      ≤ ((ofSeed slots seed).sketchDocument x).size :=
  (Split.required_bestFor_le hslots threshold).trans_eq
    (size_sketchDocument_ofSeed slots seed x).symm

theorem DocumentTable.getElem?_ofList_of_mem (hids : (documents.map Document.id).Nodup)
    {x : Document} (hx : x ∈ documents) : (ofList documents)[x.id]? = some x :=
  (getElem?_ofList_iff hids).mpr ⟨hx, rfl⟩

/-- The two numbers of a pair, in either order. -/
def DocumentPair.ends (pair : DocumentPair) : Sym2 DocumentId :=
  s(pair.first, pair.second)

namespace Index

/-- **No two candidates have the same numbers**, in whatever order. -/
theorem nodup_ends_candidatePairs {index : Index} (h : Sound index) :
    (index.candidatePairs.map DocumentPair.ends).Nodup := by
  refine List.Nodup.map_on ?_ (nodup_candidatePairs index)
  rintro ⟨a, b⟩ hpair ⟨a', b'⟩ hpair' heq
  rcases Sym2.eq_iff.mp heq with ⟨rfl, rfl⟩ | ⟨rfl, rfl⟩
  · rfl
  · have hlt := ((mem_candidatePairs_iff h).mp hpair).1
    exact absurd hlt (UInt32.lt_asymm ((mem_candidatePairs_iff h).mp hpair').1)

/-- The index of the signatures of some documents. -/
def ofDocuments (split : Split) (sketcher : Sketcher) (documents : List Document) : Index :=
  ((empty split).insertAll (sketcher.sketchAll documents)).value

theorem follows_ofDocuments (split : Split) (sketcher : Sketcher) (documents : List Document) :
    Follows split ((sketcher.sketchAll documents).foldl (accept split) fun _ => none)
      (ofDocuments split sketcher documents) := by
  rw [ofDocuments, value_insertAll]
  exact (follows_empty split).foldl_insert _

/-- The signature of the document of a number. -/
def signatureOf (sketcher : Sketcher) (documents : List Document) (id : DocumentId) :
    Option Signature :=
  (DocumentTable.ofList documents)[id]?.map sketcher.sketchDocument

/-- **The last document of every number is stored**, if every signature is long enough. -/
theorem signature?_ofDocuments
    (hlong : ∀ x ∈ documents, split.required ≤ (sketcher.sketchDocument x).size)
    (id : DocumentId) :
    (ofDocuments split sketcher documents).signature? id = signatureOf sketcher documents id := by
  rw [(follows_ofDocuments split sketcher documents).stored]
  induction documents using List.reverseRecOn with
  | nil => simp [Sketcher.sketchAll, signatureOf, DocumentTable.ofList]
  | append_singleton documents last ih =>
    have hrest := ih fun x hx => hlong x (List.mem_append_left [last] hx)
    have hlast := hlong last List.mem_concat_self
    rw [Sketcher.sketchAll, List.map_append, List.foldl_append, ← Sketcher.sketchAll, signatureOf,
      DocumentTable.ofList, List.foldl_append, ← DocumentTable.ofList, List.map_singleton,
      List.foldl_cons, List.foldl_nil, List.foldl_cons, List.foldl_nil, accept, hrest,
      Std.HashMap.getElem?_insert, signatureOf]
    by_cases hid : last.id = id
    · rw [if_pos ⟨hlast, hid.symm⟩, if_pos (beq_iff_eq.mpr hid), Option.map_some]
    · rw [if_neg fun h => hid h.2.symm, if_neg fun h => hid (eq_of_beq h)]

section Stored

variable (hids : (documents.map Document.id).Nodup)
  (hlong : ∀ x ∈ documents, split.required ≤ (sketcher.sketchDocument x).size)

include hids

theorem signatureOf_eq_some_iff {id : DocumentId} {signature : Signature} :
    signatureOf sketcher documents id = some signature
      ↔ ∃ x ∈ documents, x.id = id ∧ sketcher.sketchDocument x = signature := by
  rw [signatureOf, Option.map_eq_some_iff]
  simp only [DocumentTable.getElem?_ofList_iff hids, and_assoc]

include hlong

/-- **Documents collide in the index** exactly if they share a bucket. -/
theorem collides_ofDocuments_iff {a b : DocumentId} :
    (ofDocuments split sketcher documents).Collides a b
      ↔ ∃ x ∈ documents, ∃ y ∈ documents, x.id = a ∧ y.id = b
        ∧ sketcher.SharesBucket split x y := by
  rw [Collides, (follows_ofDocuments split sketcher documents).split_eq]
  simp only [signature?_ofDocuments hlong, signatureOf_eq_some_iff hids]
  constructor
  · rintro ⟨s, t, ⟨x, hx, hxa, rfl⟩, ⟨y, hy, hyb, rfl⟩, hband⟩
    exact ⟨x, hx, y, hy, hxa, hyb, hband⟩
  · rintro ⟨x, hx, y, hy, hxa, hyb, hband⟩
    exact ⟨_, _, ⟨x, hx, hxa, rfl⟩, ⟨y, hy, hyb, rfl⟩, hband⟩

/-- **The candidates** are the pairs that share a bucket, the smaller number first. -/
theorem mem_candidatePairs_ofDocuments_iff {pair : DocumentPair} :
    pair ∈ (ofDocuments split sketcher documents).candidatePairs
      ↔ ∃ x ∈ documents, ∃ y ∈ documents, pair = ⟨x.id, y.id⟩ ∧ x.id < y.id
        ∧ sketcher.SharesBucket split x y := by
  rw [mem_candidatePairs_iff (follows_ofDocuments _ _ _).sound,
    collides_ofDocuments_iff hids hlong]
  constructor
  · rintro ⟨hlt, x, hx, y, hy, hxid, hyid, hbucket⟩
    rw [← hxid, ← hyid] at hlt
    exact ⟨x, hx, y, hy, by rw [hxid, hyid], hlt, hbucket⟩
  · rintro ⟨x, hx, y, hy, rfl, hlt, hbucket⟩
    exact ⟨hlt, x, hx, y, hy, rfl, rfl, hbucket⟩

/-- **Two documents that share a bucket** are a candidate, in one order or the other. -/
theorem ends_mem_candidatePairs {x y : Document} (hx : x ∈ documents) (hy : y ∈ documents)
    (hne : x.id ≠ y.id) (hbucket : sketcher.SharesBucket split x y) :
    s(x.id, y.id) ∈ (ofDocuments split sketcher documents).candidatePairs.map
      DocumentPair.ends := by
  rcases UInt32.lt_or_lt_of_ne hne with hlt | hlt
  · exact List.mem_map.mpr ⟨⟨x.id, y.id⟩, (mem_candidatePairs_ofDocuments_iff hids hlong).mpr
      ⟨x, hx, y, hy, rfl, hlt, hbucket⟩, rfl⟩
  · exact List.mem_map.mpr ⟨⟨y.id, x.id⟩, (mem_candidatePairs_ofDocuments_iff hids hlong).mpr
      ⟨y, hy, x, hx, rfl, hlt, hbucket.symm⟩, Sym2.eq_swap⟩

end Stored

end Index

end CodeClones
