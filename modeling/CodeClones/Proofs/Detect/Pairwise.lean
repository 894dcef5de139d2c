import CodeClones.Detect.Pairwise
import CodeClones.Proofs.Detect.Similar
import CodeClones.Proofs.Window.Bucket

/-!
# Proofs/Detect/Pairwise — the index against the scan of all pairs

Both the scan of all pairs and the search by way of the index go through candidates, score them and
keep those that reach the threshold, so what they list depends on which pairs are candidates alone
(`lists_of_filterMap`).  The candidates of the scan are all pairs (`lists_similarPairs`), those of
the index the pairs that share a bucket (`lists_pairs`).
-/

namespace CodeClones

open Log

/-! ## Lists of similar pairs -/

namespace SimilarPair

/-- The numbers of a pair, in either order. -/
def ends (pair : SimilarPair) : Sym2 DocumentId :=
  s(pair.first, pair.second)

/-- **A pair without its order** — its two numbers and its similarity. -/
def unordered (pair : SimilarPair) : Sym2 DocumentId × Float :=
  (pair.ends, pair.similarity)

/-- **The pairs of a relation that reach a threshold** are listed, each once and with its score. -/
structure Lists (documents : List Document) (r : Document → Document → Prop)
    (score : Document → Document → Overlap) (threshold : Float) (found : List SimilarPair) :
    Prop where
  once : (found.map ends).Nodup
  mem_iff : ∀ entry, entry ∈ found.map unordered ↔ ∃ x ∈ documents, ∃ y ∈ documents,
    x.id ≠ y.id ∧ r x y ∧ threshold ≤ (score x y).toFloat
      ∧ entry = (s(x.id, y.id), (score x y).toFloat)

/-- A pair with its score, if it reaches the threshold. -/
def scored? (score : Document → Document → Overlap) (threshold : Float) (x y : Document) :
    Option SimilarPair :=
  if threshold ≤ (score x y).toFloat then some ⟨x.id, y.id, (score x y).toFloat⟩ else none

theorem scored?_eq_some_iff {score : Document → Document → Overlap} {threshold : Float}
    {x y : Document} {pair : SimilarPair} : scored? score threshold x y = some pair
      ↔ threshold ≤ (score x y).toFloat ∧ pair = ⟨x.id, y.id, (score x y).toFloat⟩ := by
  rw [scored?, Option.ite_none_right_eq_some, Option.some_inj, eq_comm]

/-- Scoring leaves the numbers of each candidate, so it lists none twice. -/
theorem sublist_map_filterMap {α β γ : Type} {f : α → Option β} {key : α → γ} {key' : β → γ}
    {candidates : List α} (h : ∀ a ∈ candidates, ∀ b, f a = some b → key' b = key a) :
    ((candidates.filterMap f).map key').Sublist (candidates.map key) := by
  induction candidates with
  | nil => exact List.Sublist.refl _
  | cons a candidates ih =>
    have ih := ih fun a' ha' => h a' (List.mem_cons_of_mem a ha')
    cases hresult : f a with
    | none =>
      rw [List.filterMap_cons_none hresult]
      exact ih.cons (key a)
    | some b =>
      rw [List.filterMap_cons_some hresult, List.map_cons, h a List.mem_cons_self b hresult]
      exact ih.cons_cons (key a)

section Candidates

variable {documents : List Document} {r : Document → Document → Prop}
  {score : Document → Document → Overlap} {threshold : Float} {found : List SimilarPair}
  {α : Type} (candidates : List α) (f : α → Option SimilarPair) (key : α → Sym2 DocumentId)
  (hids : (documents.map Document.id).Nodup) (hscore : ∀ x y, score x y = score y x)
  (honce : (candidates.map key).Nodup)
  (hsound : ∀ a ∈ candidates, ∃ x ∈ documents, ∃ y ∈ documents, x.id ≠ y.id ∧ r x y
    ∧ key a = s(x.id, y.id) ∧ f a = scored? score threshold x y)
  (hcomplete : ∀ x ∈ documents, ∀ y ∈ documents, x.id ≠ y.id → r x y →
    s(x.id, y.id) ∈ candidates.map key)

include hids hscore in
/-- **The score of two documents** depends on their numbers alone, in whatever order. -/
theorem score_congr {x y x' y' : Document} (hx : x ∈ documents) (hy : y ∈ documents)
    (hx' : x' ∈ documents) (hy' : y' ∈ documents) (h : s(x'.id, y'.id) = s(x.id, y.id)) :
    score x' y' = score x y := by
  have hinj := List.inj_on_of_nodup_map hids
  rcases Sym2.eq_iff.mp h with ⟨hxx, hyy⟩ | ⟨hxy, hyx⟩
  · rw [hinj hx' hx hxx, hinj hy' hy hyy]
  · rw [hinj hx' hy hxy, hinj hy' hx hyx, hscore]

include honce hsound in
theorem nodup_ends_filterMap : ((candidates.filterMap f).map ends).Nodup := by
  refine honce.sublist (sublist_map_filterMap fun a ha pair hpair => ?_)
  obtain ⟨x, -, y, -, -, -, hkey, hf⟩ := hsound a ha
  obtain ⟨-, rfl⟩ := scored?_eq_some_iff.mp (hf.symm.trans hpair)
  exact hkey.symm

include hids hscore hsound hcomplete in
theorem mem_unordered_filterMap {entry : Sym2 DocumentId × Float} :
    entry ∈ (candidates.filterMap f).map unordered ↔ ∃ x ∈ documents, ∃ y ∈ documents,
      x.id ≠ y.id ∧ r x y ∧ threshold ≤ (score x y).toFloat
        ∧ entry = (s(x.id, y.id), (score x y).toFloat) := by
  rw [List.mem_map]
  constructor
  · rintro ⟨pair, hpair, rfl⟩
    obtain ⟨a, ha, hpair⟩ := List.mem_filterMap.mp hpair
    obtain ⟨x, hx, y, hy, hne, hr, -, hf⟩ := hsound a ha
    obtain ⟨hle, rfl⟩ := scored?_eq_some_iff.mp (hf.symm.trans hpair)
    exact ⟨x, hx, y, hy, hne, hr, hle, rfl⟩
  · rintro ⟨x, hx, y, hy, hne, hr, hle, rfl⟩
    obtain ⟨a, ha, hkey⟩ := List.mem_map.mp (hcomplete x hx y hy hne hr)
    -- the candidate may have the two documents in the other order
    obtain ⟨x', hx', y', hy', -, -, hkey', hf⟩ := hsound a ha
    have hnumbers := hkey'.symm.trans hkey
    have hsame := score_congr hids hscore hx hy hx' hy' hnumbers
    refine ⟨⟨x'.id, y'.id, (score x' y').toFloat⟩, List.mem_filterMap.mpr ⟨a, ha, ?_⟩, ?_⟩
    · rw [hf, scored?_eq_some_iff, hsame]
      exact ⟨hle, rfl⟩
    · rw [unordered, ends, hnumbers, hsame]

include hids hscore honce hsound hcomplete in
/-- **What is listed depends on the candidates** — it is enough that these are the pairs of the
relation, each once and in either order. -/
theorem lists_of_filterMap (hfound : found.Perm (candidates.filterMap f)) :
    Lists documents r score threshold found where
  once := (hfound.map ends).nodup_iff.mpr (nodup_ends_filterMap candidates f key honce hsound)
  mem_iff _ := (hfound.map unordered).mem_iff.trans
    (mem_unordered_filterMap candidates f key hids hscore hsound hcomplete)

end Candidates

end SimilarPair

/-! ## The scan of all pairs -/

section Scan

variable {documents : List Document} (hids : (documents.map Document.id).Nodup)

/-- The estimated overlap of two documents. -/
def Sketcher.estimate (sketcher : Sketcher) (x y : Document) : Overlap :=
  (sketcher.sketchDocument x).overlap (sketcher.sketchDocument y)

theorem Sketcher.estimate_comm (sketcher : Sketcher) (x y : Document) :
    sketcher.estimate x y = sketcher.estimate y x :=
  Signature.overlap_comm _ _

theorem Signature.similarAmong_eq (threshold : Float) (signatures : List Signature) :
    similarAmong threshold signatures
      = (Window.pairs signatures).filterMap fun pair => similar? threshold pair.1 pair.2 := by
  induction signatures with
  | nil => rfl
  | cons a signatures ih =>
    rw [similarAmong, Window.pairs, List.filterMap_append, List.filterMap_map, ih]
    rfl

include hids

/-- **The scan lists all pairs that reach the threshold.** -/
theorem lists_similarPairs (sketcher : Sketcher) (threshold : Float) :
    SimilarPair.Lists documents (fun _ _ => True) sketcher.estimate threshold
      (Signature.similarPairs threshold (sketcher.sketchAll documents)) := by
  refine SimilarPair.lists_of_filterMap (Window.pairs documents)
    (fun pair => SimilarPair.scored? sketcher.estimate threshold pair.1 pair.2)
    (fun pair => s(pair.1.id, pair.2.id)) hids sketcher.estimate_comm ?_ ?_ ?_ ?_
  · have honce := Window.nodup_pairs hids
    rw [Window.pairs_map, List.map_map] at honce
    exact honce
  · intro pair hpair
    obtain ⟨hx, hy⟩ := Window.mem_of_mem_pairs hpair
    have hne := Window.rel_of_mem_pairs (List.pairwise_map.mp hids) hpair
    exact ⟨pair.1, hx, pair.2, hy, hne, trivial, rfl, rfl⟩
  · intro x hx y hy hne _
    have hdocuments : x ≠ y := fun heq => hne (congrArg Document.id heq)
    rcases Window.mem_pairs_or hx hy hdocuments with hpair | hpair
    · exact List.mem_map.mpr ⟨_, hpair, rfl⟩
    · exact List.mem_map.mpr ⟨_, hpair, Sym2.eq_swap⟩
  · refine (List.mergeSort_perm _ _).trans (List.Perm.of_eq ?_)
    rw [Signature.similarAmong_eq, Sketcher.sketchAll, Window.pairs_map, List.filterMap_map]
    rfl

end Scan

/-! ## The search by way of the index -/

namespace Detect.SimilarDocuments

variable (search : SimilarDocuments)

/-- How a search scores a pair: exactly, or by its signatures. -/
def score (exactly : Bool) (x y : Document) : Overlap :=
  if exactly then x.overlap y else search.sketcher.estimate x y

theorem score_comm (exactly : Bool) (x y : Document) :
    search.score exactly x y = search.score exactly y x := by
  rw [score, score, search.sketcher.estimate_comm, Document.overlap, Overlap.ofAscending_comm]
  rfl

/-- How a search splits its signatures into bands. -/
def bandSplit : Split :=
  Split.ofCounts search.split.1 search.split.2

/-- **Two documents share a bucket** of the index. -/
def SharesBucket (x y : Document) : Prop :=
  search.sketcher.SharesBucket search.bandSplit x y

/-- The index of the signatures of some documents. -/
def indexOf (documents : List Document) : Index :=
  Index.ofDocuments search.bandSplit search.sketcher documents

theorem value_pairs (documents : List Document) (exactly : Bool) :
    (search.pairs documents exactly).value
      = (search.indexOf documents).rescore (DocumentTable.ofList documents) search.threshold
          exactly (search.indexOf documents).candidatePairs := rfl

section Listed

variable {search} {documents : List Document} (hids : (documents.map Document.id).Nodup)
  (hlong : ∀ x ∈ documents, search.bandSplit.required ≤ (search.sketcher.sketchDocument x).size)

include hids hlong

/-- **No document is lost** before candidates are sought. -/
theorem signature?_indexOf {x : Document} (hx : x ∈ documents) :
    (search.indexOf documents).signature? x.id = some (search.sketcher.sketchDocument x) := by
  rw [indexOf, Index.signature?_ofDocuments hlong, Index.signatureOf_eq_some_iff hids]
  exact ⟨x, hx, rfl, rfl⟩

/-- **A candidate pair is scored** by its two documents. -/
theorem rescore?_eq (exactly : Bool) {x y : Document} (hx : x ∈ documents) (hy : y ∈ documents) :
    (search.indexOf documents).rescore? (DocumentTable.ofList documents) search.threshold exactly
        ⟨x.id, y.id⟩
      = SimilarPair.scored? (search.score exactly) search.threshold x y := by
  rw [Index.rescore?, signature?_indexOf hids hlong hx, signature?_indexOf hids hlong hy,
    DocumentTable.getElem?_ofList_of_mem hids hx, DocumentTable.getElem?_ofList_of_mem hids hy]
  cases exactly <;> rfl

/-- **The search lists the pairs that share a bucket and reach the threshold.** -/
theorem lists_pairs (exactly : Bool) : SimilarPair.Lists documents search.SharesBucket
    (search.score exactly) search.threshold (search.pairs documents exactly).value := by
  rw [value_pairs]
  refine SimilarPair.lists_of_filterMap (search.indexOf documents).candidatePairs _
    DocumentPair.ends hids (search.score_comm exactly)
    (Index.nodup_ends_candidatePairs (Index.follows_ofDocuments _ _ _).sound) ?_
    (fun x hx y hy hne hbucket => Index.ends_mem_candidatePairs hids hlong hx hy hne hbucket)
    (List.mergeSort_perm _ _)
  intro pair hpair
  obtain ⟨x, hx, y, hy, rfl, hlt, hbucket⟩ :=
    (Index.mem_candidatePairs_ofDocuments_iff hids hlong).mp hpair
  exact ⟨x, hx, y, hy, UInt32.ne_of_lt hlt, hbucket, rfl, rescore?_eq hids hlong exactly hx hy⟩

end Listed

/-! ## The search against the scan -/

/-- **The numbers of two documents that share a bucket**, in either order. -/
def Colliding (documents : List Document) (ends : Sym2 DocumentId) : Prop :=
  ∃ x ∈ documents, ∃ y ∈ documents, ends = s(x.id, y.id) ∧ search.SharesBucket x y

variable {search} in
/-- **Colliding numbers** are those of documents that share a bucket, if numbers are distinct. -/
theorem colliding_iff {documents : List Document} (hids : (documents.map Document.id).Nodup)
    {x y : Document} (hx : x ∈ documents) (hy : y ∈ documents) :
    search.Colliding documents s(x.id, y.id) ↔ search.SharesBucket x y := by
  constructor
  · rintro ⟨x', hx', y', hy', hends, hbucket⟩
    have hinj := List.inj_on_of_nodup_map hids
    rcases Sym2.eq_iff.mp hends with ⟨hxx, hyy⟩ | ⟨hxy, hyx⟩
    · rwa [hinj hx hx' hxx, hinj hy hy' hyy]
    · rw [hinj hx hy' hxy, hinj hy hx' hyx]
      exact Sketcher.SharesBucket.symm hbucket
  · intro hbucket
    exact ⟨x, hx, y, hy, rfl, hbucket⟩

/-- **The split fits the signatures** of as many slots as it was chosen for. -/
theorem required_le_size {slots : Nat} (hslots : 0 < slots) (threshold : Float) (seed : UInt64)
    (x : Document) : (of slots threshold seed).bandSplit.required
      ≤ ((of slots threshold seed).sketcher.sketchDocument x).size :=
  Sketcher.required_le_size hslots threshold seed x

/-- **The search finds what the scan of all pairs finds among the pairs that share a bucket** —
every document is stored before candidates are sought; scored by signature, the pairs found are
those of the scan that collide in a band; scored exactly, they are the colliding pairs whose exact
similarity reaches the threshold; and each is found once. -/
theorem pairs_agree_with_scan {slots : Nat} (hslots : 0 < slots) (threshold : Float)
    (seed : UInt64) {documents : List Document} (hids : (documents.map Document.id).Nodup) :
    let search := SimilarDocuments.of slots threshold seed
    let scanned := Signature.similarPairs threshold (search.sketcher.sketchAll documents)
    (∀ x ∈ documents,
      (search.indexOf documents).signature? x.id = some (search.sketcher.sketchDocument x))
    ∧ ((search.pairs documents false).value.map SimilarPair.ends).Nodup
    ∧ (∀ entry, entry ∈ (search.pairs documents false).value.map SimilarPair.unordered
        ↔ entry ∈ scanned.map SimilarPair.unordered ∧ search.Colliding documents entry.1)
    ∧ SimilarPair.Lists documents search.SharesBucket Document.overlap threshold
        (search.pairs documents true).value
    ∧ ∀ x y : Document, x.hashes.Pairwise (· < ·) → y.hashes.Pairwise (· < ·) →
        x.overlap y = x.jaccard y := by
  intro search scanned
  have hlong : ∀ x ∈ documents,
      search.bandSplit.required ≤ (search.sketcher.sketchDocument x).size :=
    fun x _ => required_le_size hslots threshold seed x
  have hestimated := lists_pairs hids hlong false
  have hscanned := lists_similarPairs hids search.sketcher threshold
  refine ⟨fun x hx => signature?_indexOf hids hlong hx, hestimated.once, fun entry => ?_,
    lists_pairs hids hlong true, fun x y hx hy => Overlap.ofAscending_eq_jaccard hx hy⟩
  rw [hestimated.mem_iff, hscanned.mem_iff]
  constructor
  · rintro ⟨x, hx, y, hy, hne, hbucket, hle, rfl⟩
    exact ⟨⟨x, hx, y, hy, hne, trivial, hle, rfl⟩, (colliding_iff hids hx hy).mpr hbucket⟩
  · rintro ⟨⟨x, hx, y, hy, hne, -, hle, rfl⟩, hcolliding⟩
    exact ⟨x, hx, y, hy, hne, (colliding_iff hids hx hy).mp hcolliding, hle, rfl⟩

/-- Two documents with the same hashes are found even if full similarity is asked for. -/
theorem pairs_of_equal_documents :
    let documents : List Document := [⟨0, "a", 1, 2, 3, [4, 5]⟩, ⟨1, "b", 1, 2, 3, [4, 5]⟩]
    let search := SimilarDocuments.of 4 1 7
    0 < 4 ∧ (documents.map Document.id).Nodup
      ∧ (s(0, 1), 1) ∈ (search.pairs documents true).value.map SimilarPair.unordered := by
  intro documents search
  have hids : (documents.map Document.id).Nodup := by decide
  obtain ⟨-, -, -, hlists, hjaccard⟩ := pairs_agree_with_scan (show 0 < 4 by decide) 1 7 hids
  have hfull : (Document.overlap ⟨0, "a", 1, 2, 3, [4, 5]⟩ ⟨1, "b", 1, 2, 3, [4, 5]⟩).toFloat
      = 1 := by
    rw [hjaccard _ _ (by decide) (by decide)]
    exact Overlap.jaccard_self ⟨4, by decide⟩
  refine ⟨by decide, hids, (hlists.mem_iff _).mpr ⟨_, List.mem_cons_self, _,
    List.mem_cons_of_mem _ List.mem_cons_self, by decide, ?_, ?_, ?_⟩⟩
  · exact ⟨0, search.bandSplit.bands_pos, congrArg (Signature.bandHash _ · 0)
      (search.sketcher.slots_sketchDocument_congr rfl)⟩
  · rw [hfull]
    exact Double.le_of_not_lt Double.isNumber_one Double.isNumber_one
      fun hlt => Double.not_lt_of_lt hlt hlt
  · rw [hfull]

end Detect.SimilarDocuments

end CodeClones
