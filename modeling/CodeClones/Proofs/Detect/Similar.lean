import CodeClones.Proofs.Detect.Spread
import CodeClones.Proofs.Index.Documents
import CodeClones.Proofs.Index.Recall
import CodeClones.Proofs.Index.Split
import CodeClones.Proofs.Order.Distinct
import CodeClones.Proofs.Similarity.Overlap

/-!
# Proofs/Detect/Similar — verified pairs are the pairs of similar blocks

Block numbers are positions in five places at once: in the list of blocks, the signatures, the
index, the table of the verifier and the graph.  `Ready` says what keeps them together — blocks are
numbered by their positions, and no signature is too short for the index.  Then no block is lost on
the way (`collides_iff`, `getElem?_ofList`), the verified pairs are the pairs of similar blocks
(`mem_edges_iff`), and the classes that are grouped are the components of similarity
(`listsClasses_classes`).
-/

namespace CodeClones

open Log

/-! ## Similar documents -/

namespace Document

/-- **Two documents share a line** if they are in one file and their line ranges meet. -/
def SharesLine (x y : Document) : Prop :=
  x.file = y.file ∧ x.startLine ≤ y.endLine ∧ y.startLine ≤ x.endLine

/-- The Jaccard similarity of the shingle hashes of two documents. -/
def jaccard (x y : Document) : Overlap :=
  Overlap.jaccard x.hashes.toFinset y.hashes.toFinset

theorem jaccard_comm (x y : Document) : x.jaccard y = y.jaccard x := by
  rw [jaccard, jaccard, Overlap.jaccard, Overlap.jaccard, Finset.inter_comm, Finset.union_comm]

theorem overlapsInFile_iff {x y : Document} : x.overlapsInFile y = true ↔ x.SharesLine y := by
  rw [overlapsInFile, SharesLine, Bool.and_eq_true, beq_iff_eq, Bool.not_eq_true',
    Bool.or_eq_false_iff, decide_eq_false_iff_not, decide_eq_false_iff_not, Int.not_lt, Int.not_lt]
  exact and_congr_right fun _ => and_comm

end Document

/-- The numbers of a verified pair as nodes of the graph. -/
def VerifiedPair.ends (pair : VerifiedPair) : Nat × Nat :=
  (pair.first.id.toNat, pair.second.id.toNat)

namespace Detect.SimilarSearch

variable (search : SimilarSearch)

/-- **Two documents share a bucket** if their signatures have the same hash in some band. -/
def SharesBucket (x y : Document) : Prop :=
  ∃ band < search.index.split.bands,
    Signature.bandHash search.index.split (search.sketcher.sketchDocument x).slots band
      = Signature.bandHash search.index.split (search.sketcher.sketchDocument y).slots band

/-- **Two documents are alike**: they share a bucket, reach the clamped minimum similarity and share
no line. -/
structure Alike (x y : Document) : Prop where
  bucket : search.SharesBucket x y
  minimum_le : clampUnit search.minimum ≤ (x.jaccard y).toFloat
  lines : ¬x.SharesLine y

/-- **Two blocks are similar**, by their numbers. -/
def Similar (blocks : List Document) (a b : Nat) : Prop :=
  a ≠ b ∧ ∃ x y, blocks[a]? = some x ∧ blocks[b]? = some y ∧ search.Alike x y

variable {search} in
theorem Alike.symm {x y : Document} (h : search.Alike x y) : search.Alike y x := by
  obtain ⟨⟨band, hband, hhash⟩, hminimum, hlines⟩ := h
  refine ⟨⟨band, hband, hhash.symm⟩, ?_, fun hshares => ?_⟩
  · rwa [Document.jaccard_comm]
  · exact hlines ⟨hshares.1.symm, hshares.2.2, hshares.2.1⟩

variable {search} in
theorem Similar.symm {blocks : List Document} {a b : Nat} (h : search.Similar blocks a b) :
    search.Similar blocks b a := by
  obtain ⟨hne, x, y, hx, hy, halike⟩ := h
  exact ⟨hne.symm, y, x, hy, hx, halike.symm⟩

/-- The verified pairs by their numbers, the edges of the graph. -/
def edges (blocks : List Document) : List (Nat × Nat) :=
  (search.verified blocks).map VerifiedPair.ends

/-- **What a search needs to see every block.** -/
structure Ready (blocks : List Document) : Prop where
  numbered : ∀ (i : Nat) (x : Document), blocks[i]? = some x → x.id.toNat = i
  long : ∀ x ∈ blocks, search.index.split.required ≤ (search.sketcher.sketchDocument x).size
  ascending : ∀ x ∈ blocks, x.hashes.Pairwise (· < ·)

namespace Ready

variable {search} {blocks : List Document} (h : search.Ready blocks)

include h

theorem getElem?_id {x : Document} (hx : x ∈ blocks) : blocks[x.id.toNat]? = some x := by
  obtain ⟨i, hi⟩ := List.mem_iff_getElem?.mp hx
  rwa [h.numbered i x hi]

theorem mem_and_id_iff {id : DocumentId} {x : Document} :
    x ∈ blocks ∧ x.id = id ↔ blocks[id.toNat]? = some x := by
  constructor
  · rintro ⟨hx, rfl⟩
    exact h.getElem?_id hx
  · intro hx
    exact ⟨List.mem_of_getElem? hx, UInt32.toNat_inj.mp (h.numbered _ x hx)⟩

theorem nodup_ids : (blocks.map Document.id).Nodup := by
  refine List.nodup_iff_pairwise_ne.mpr (List.pairwise_map.mpr (List.pairwise_iff_getElem.mpr ?_))
  intro i j hi hj hlt heq
  have hi' := h.numbered i _ (List.getElem?_eq_getElem hi)
  have hj' := h.numbered j _ (List.getElem?_eq_getElem hj)
  rw [← heq, hi'] at hj'
  exact Nat.ne_of_lt hlt hj'

/-- **The table of the verifier loses no block.** -/
theorem getElem?_ofList (id : DocumentId) :
    (DocumentTable.ofList blocks)[id]? = blocks[id.toNat]? := by
  refine Option.ext fun x => ?_
  rw [DocumentTable.getElem?_ofList_iff h.nodup_ids, h.mem_and_id_iff]

/-! ## The index -/

omit h in
theorem follows_indexOf (search : SimilarSearch) (blocks : List Document) :
    Index.Follows search.index.split
      ((search.sketcher.sketchAll blocks).foldl (Index.accept search.index.split) fun _ => none)
      (search.indexOf blocks) :=
  Index.follows_ofDocuments search.index.split search.sketcher blocks

/-- **The index loses no block**: two numbers collide exactly if their blocks share a bucket. -/
theorem collides_iff {a b : DocumentId} :
    (search.indexOf blocks).Collides a b
      ↔ ∃ x y, blocks[a.toNat]? = some x ∧ blocks[b.toNat]? = some y ∧ search.SharesBucket x y := by
  refine (Index.collides_ofDocuments_iff h.nodup_ids h.long).trans ?_
  constructor
  · rintro ⟨x, hx, y, hy, hxa, hyb, hbucket⟩
    exact ⟨x, y, h.mem_and_id_iff.mp ⟨hx, hxa⟩, h.mem_and_id_iff.mp ⟨hy, hyb⟩, hbucket⟩
  · rintro ⟨x, y, hx, hy, hbucket⟩
    obtain ⟨hxmem, hxa⟩ := h.mem_and_id_iff.mpr hx
    obtain ⟨hymem, hyb⟩ := h.mem_and_id_iff.mpr hy
    exact ⟨x, hxmem, y, hymem, hxa, hyb, hbucket⟩

/-! ## Verified pairs -/

/-- **The exact score** is the Jaccard similarity of the hashes. -/
theorem overlap_eq {x y : Document} (hx : x ∈ blocks) (hy : y ∈ blocks) :
    x.overlap y = x.jaccard y :=
  Overlap.ofAscending_eq_jaccard (h.ascending x hx) (h.ascending y hy)

/-- **Reaching the minimum** is decided by the Jaccard similarity, which is a number. -/
theorem not_lt_minimum_iff {x y : Document} (hx : x ∈ blocks) (hy : y ∈ blocks) :
    ¬(x.overlap y).toFloat < (Verifier.ofMinimum search.minimum).minimum
      ↔ clampUnit search.minimum ≤ (x.jaccard y).toFloat := by
  rw [h.overlap_eq hx hy]
  exact ⟨Double.le_of_not_lt (Overlap.isNumber_jaccard _ _) (Double.clampUnit_spec _).1,
    Double.not_lt_of_le⟩

/-- **The verified pairs** are the pairs of similar blocks, the smaller number first. -/
theorem mem_verified_iff {pair : VerifiedPair} :
    pair ∈ search.verified blocks
      ↔ blocks[pair.first.id.toNat]? = some pair.first
        ∧ blocks[pair.second.id.toNat]? = some pair.second
        ∧ pair.first.id < pair.second.id
        ∧ search.Alike pair.first pair.second
        ∧ pair.similarity = (pair.first.jaccard pair.second).toFloat := by
  rw [verified, Verifier.mem_verifyAll_iff (DocumentTable.own_ofList blocks),
    Index.mem_candidatePairs_iff (follows_indexOf search blocks).sound, h.collides_iff,
    Verifier.verify?_eq_some_iff, h.getElem?_ofList, h.getElem?_ofList,
    Document.overlapsInFile_iff]
  constructor
  · rintro ⟨⟨hlt, x, y, hx, hy, hbucket⟩, hfirst, hsecond, hlines, hminimum, hsimilarity⟩
    obtain rfl := Option.some.inj (hfirst.symm.trans hx)
    obtain rfl := Option.some.inj (hsecond.symm.trans hy)
    have hmem := List.mem_of_getElem? hfirst
    have hmem' := List.mem_of_getElem? hsecond
    rw [hsimilarity, h.not_lt_minimum_iff hmem hmem'] at hminimum
    rw [h.overlap_eq hmem hmem'] at hsimilarity
    exact ⟨hfirst, hsecond, hlt, ⟨hbucket, hminimum, hlines⟩, hsimilarity⟩
  · rintro ⟨hfirst, hsecond, hlt, ⟨hbucket, hminimum, hlines⟩, hsimilarity⟩
    have hmem := List.mem_of_getElem? hfirst
    have hmem' := List.mem_of_getElem? hsecond
    rw [← h.overlap_eq hmem hmem'] at hsimilarity
    rw [← h.not_lt_minimum_iff hmem hmem', ← hsimilarity] at hminimum
    exact ⟨⟨hlt, _, _, hfirst, hsecond, hbucket⟩, hfirst, hsecond, hlines, hminimum, hsimilarity⟩

/-- **The edges of the graph** are the pairs of similar blocks. -/
theorem mem_edges_iff {a b : Nat} :
    (a, b) ∈ search.edges blocks ↔ a < b ∧ search.Similar blocks a b := by
  rw [edges, List.mem_map]
  constructor
  · rintro ⟨pair, hpair, hends⟩
    obtain ⟨hfirst, hsecond, hlt, halike, -⟩ := h.mem_verified_iff.mp hpair
    obtain ⟨rfl, rfl⟩ := Prod.mk.inj hends
    have hlt : pair.first.id.toNat < pair.second.id.toNat := hlt
    exact ⟨hlt, Nat.ne_of_lt hlt, _, _, hfirst, hsecond, halike⟩
  · rintro ⟨hlt, -, x, y, hx, hy, halike⟩
    have hid := h.numbered a x hx
    have hid' := h.numbered b y hy
    refine ⟨⟨x, y, (x.jaccard y).toFloat⟩, h.mem_verified_iff.mpr ⟨?_, ?_, ?_, halike, rfl⟩, ?_⟩
    · rwa [hid]
    · rwa [hid']
    · rw [UInt32.lt_iff_toNat_lt, hid, hid']
      exact hlt
    · rw [VerifiedPair.ends, hid, hid']

/-! ## Components -/

theorem joined_edges_iff {a b : Nat} :
    CloneGraph.Joined blocks.length (search.edges blocks) a b
      ↔ a < b ∧ search.Similar blocks a b := by
  rw [CloneGraph.Joined, h.mem_edges_iff]
  refine ⟨fun hjoined => hjoined.1, fun hedge => ⟨hedge, Nat.ne_of_lt hedge.1, ?_⟩⟩
  obtain ⟨-, x, y, hx, hy, -⟩ := hedge.2
  exact ⟨(List.getElem?_eq_some_iff.mp hx).1, (List.getElem?_eq_some_iff.mp hy).1⟩

/-- **Blocks are linked in the graph** exactly if similar blocks connect them. -/
theorem linked_eq : CloneGraph.Linked blocks.length (search.edges blocks)
    = Relation.EqvGen (search.Similar blocks) := by
  rw [CloneGraph.Linked]
  refine le_antisymm (Relation.EqvGen.mono fun a b hab => ?_)
    (Relation.EqvGen.eqvGen_le fun a b hab => ?_)
  · exact (h.joined_edges_iff.mp hab).2
  · rcases Nat.lt_or_gt_of_ne hab.1 with hlt | hlt
    · exact Relation.EqvGen.rel a b (h.joined_edges_iff.mpr ⟨hlt, hab⟩)
    · exact (Relation.EqvGen.rel b a (h.joined_edges_iff.mpr ⟨hlt, hab.symm⟩)).symm

/-- **The classes that are grouped** are the components of similarity. -/
theorem listsClasses_classes :
    CloneGraph.ListsClasses (Relation.EqvGen (search.Similar blocks)) (search.classes blocks) := by
  rw [← h.linked_eq]
  exact CloneGraph.listsClasses_components (CloneGraph.represents_ofEdges _ _)

end Ready

end Detect.SimilarSearch

end CodeClones
