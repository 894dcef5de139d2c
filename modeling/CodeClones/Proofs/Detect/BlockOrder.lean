import CodeClones.Proofs.Clone.Key
import CodeClones.Proofs.Detect.Component
import CodeClones.Proofs.Graph.Renumbering
import CodeClones.Proofs.Index.Numbered

/-!
# Proofs/Detect/BlockOrder — the order of the files does not matter to blocks

Files in another order give the same blocks under other numbers (`exists_renumbers`).  Whether two
blocks share a bucket, how similar they are and whether they overlap does not depend on their
numbers (`alike_unnumbered`), so every stage is carried along: the candidates, the verified pairs
with their scores and the components (`Ready.carries`).  Numbers decide only which block of a pair
comes first and how pairs and components are sorted.  The groups show the same clones
(`Ready.perm_clones`), hence the same keys are returned (`found_in_any_order`).
-/

namespace CodeClones

open Log Parallel

/-! ## Documents without numbers -/

/-- A document without its number. -/
def Document.unnumbered (x : Document) : Document :=
  { x with id := 0 }

namespace Detect.SimilarSearch

variable {search : SimilarSearch} {blocks blocks' : List Document} {π : Equiv.Perm ℕ}

@[simp] theorem cloneOf_unnumbered (x : Document) : cloneOf x.unnumbered = cloneOf x := rfl

@[simp] theorem sharesBucket_unnumbered {x y : Document} :
    search.SharesBucket x.unnumbered y.unnumbered ↔ search.SharesBucket x y := by
  have hslots : ∀ x : Document, (search.sketcher.sketchDocument x.unnumbered).slots
      = (search.sketcher.sketchDocument x).slots := fun x =>
    search.sketcher.slots_sketchDocument_congr rfl
  rw [SharesBucket, SharesBucket, hslots, hslots]

/-- **Numbers do not matter to likeness.** -/
@[simp] theorem alike_unnumbered {x y : Document} :
    search.Alike x.unnumbered y.unnumbered ↔ search.Alike x y :=
  ⟨fun h => ⟨sharesBucket_unnumbered.mp h.bucket, h.minimum_le, h.lines⟩,
    fun h => ⟨sharesBucket_unnumbered.mpr h.bucket, h.minimum_le, h.lines⟩⟩

theorem scoreAt_comm (blocks : List Document) (a b : ℕ) :
    scoreAt blocks (a, b) = scoreAt blocks (b, a) := by
  rw [scoreAt, scoreAt]
  rcases blocks[a]? with - | x <;> rcases blocks[b]? with - | y
  · rfl
  · rfl
  · rfl
  · exact congrArg Overlap.toFloat (x.jaccard_comm y)

theorem scoreAt_unnumbered (blocks : List Document) (pair : ℕ × ℕ) :
    scoreAt (blocks.map Document.unnumbered) pair = scoreAt blocks pair := by
  rw [scoreAt, scoreAt, List.getElem?_map, List.getElem?_map]
  rcases blocks[pair.1]? with - | x <;> rcases blocks[pair.2]? with - | y <;> rfl

/-! ## Renumbered blocks -/

/-- **A renumbering of blocks** — under the new number of a block stands the same block, but for its
own number. -/
def Renumbers (π : Equiv.Perm ℕ) (blocks blocks' : List Document) : Prop :=
  ∀ number, blocks'[π number]?.map Document.unnumbered = blocks[number]?.map Document.unnumbered

namespace Renumbers

theorem symm (h : Renumbers π blocks blocks') : Renumbers π.symm blocks' blocks := fun number => by
  rw [← h, π.apply_symm_apply]

variable (h : Renumbers π blocks blocks')

include h

/-- What is read off a block without its number. -/
theorem map_eq {α : Type} {f : Document → α} (hf : ∀ x, f x.unnumbered = f x) (number : ℕ) :
    blocks'[π number]?.map f = blocks[number]?.map f := by
  have hcomp : f = f ∘ Document.unnumbered := funext fun x => (hf x).symm
  rw [hcomp, ← Option.map_map, h, Option.map_map]

theorem exists_getElem? {number : ℕ} {x : Document} (hx : blocks[number]? = some x) :
    ∃ y, blocks'[π number]? = some y ∧ y.unnumbered = x.unnumbered := by
  have hsame := h number
  rw [hx, Option.map_some] at hsame
  exact Option.map_eq_some_iff.mp hsame

theorem exists_related {R : Document → Document → Prop}
    (hR : ∀ {x y}, R x.unnumbered y.unnumbered ↔ R x y) {a b : ℕ}
    (hab : ∃ x y, blocks[a]? = some x ∧ blocks[b]? = some y ∧ R x y) :
    ∃ x y, blocks'[π a]? = some x ∧ blocks'[π b]? = some y ∧ R x y := by
  obtain ⟨x, y, hx, hy, hxy⟩ := hab
  obtain ⟨x', hx', hsame⟩ := h.exists_getElem? hx
  obtain ⟨y', hy', hsame'⟩ := h.exists_getElem? hy
  refine ⟨x', y', hx', hy', ?_⟩
  rw [← hR, hsame, hsame', hR]
  exact hxy

/-- **Blocks are related as before** in every way that does not depend on numbers. -/
theorem related_iff {R : Document → Document → Prop}
    (hR : ∀ {x y}, R x.unnumbered y.unnumbered ↔ R x y) (a b : ℕ) :
    (∃ x y, blocks'[π a]? = some x ∧ blocks'[π b]? = some y ∧ R x y)
      ↔ ∃ x y, blocks[a]? = some x ∧ blocks[b]? = some y ∧ R x y := by
  refine ⟨fun hab => ?_, h.exists_related hR⟩
  simpa using h.symm.exists_related hR hab

theorem similar_iff (a b : ℕ) :
    search.Similar blocks' (π a) (π b) ↔ search.Similar blocks a b :=
  and_congr π.injective.ne_iff (h.related_iff alike_unnumbered a b)

theorem scoreAt_eq (a b : ℕ) : scoreAt blocks' (π a, π b) = scoreAt blocks (a, b) := by
  rw [← scoreAt_unnumbered blocks', ← scoreAt_unnumbered blocks, scoreAt, scoreAt]
  simp only [List.getElem?_map, h a, h b]

end Renumbers

/-! ## What is carried along -/

/-- **What a renumbering of blocks carries along** — the candidates and the verified pairs as
unordered pairs of blocks, the latter with their scores, and the components as sets of blocks, each
as often as before. -/
structure Carries (search : SimilarSearch) (π : Equiv.Perm ℕ) (blocks blocks' : List Document) :
    Prop where
  candidates : ((search.indexOf blocks).candidatePairs.map fun pair =>
      s(π pair.first.toNat, π pair.second.toNat)).Perm
    ((search.indexOf blocks').candidatePairs.map fun pair =>
      s(pair.first.toNat, pair.second.toNat))
  verified : ((search.verified blocks).map fun pair =>
      (s(π pair.first.id.toNat, π pair.second.id.toNat), pair.similarity)).Perm
    ((search.verified blocks').map fun pair =>
      (s(pair.first.id.toNat, pair.second.id.toNat), pair.similarity))
  components : ((search.classes blocks).map fun members => (members.map π).toFinset).Perm
    ((search.classes blocks').map List.toFinset)

/-- The score of two blocks in either order. -/
def scoreOf (blocks : List Document) : Sym2 ℕ → Float :=
  Sym2.lift ⟨fun a b => scoreAt blocks (a, b), scoreAt_comm blocks⟩

namespace Ready

variable (h : search.Ready blocks)

include h

/-- **The candidates** are the pairs of blocks that share a bucket. -/
theorem listsPairs_candidates :
    CloneGraph.ListsPairs
      (fun a b => ∃ x y, blocks[a]? = some x ∧ blocks[b]? = some y ∧ search.SharesBucket x y)
      ((search.indexOf blocks).candidatePairs.map fun pair =>
        (pair.first.toNat, pair.second.toNat)) where
  mem_iff a b := by
    have hmem : ∀ pair, pair ∈ (search.indexOf blocks).candidatePairs ↔ _ := fun pair =>
      (Index.mem_candidatePairs_iff (follows_indexOf search blocks).sound).trans
        (and_congr_right fun _ => h.collides_iff)
    rw [List.mem_map]
    constructor
    · rintro ⟨pair, hpair, hends⟩
      obtain ⟨rfl, rfl⟩ := Prod.mk.inj hends
      exact (hmem pair).mp hpair
    · rintro ⟨hlt, x, y, hx, hy, hbucket⟩
      have hid := h.numbered a x hx
      have hid' := h.numbered b y hy
      refine ⟨⟨x.id, y.id⟩, (hmem _).mpr ⟨?_, x, y, ?_, ?_, hbucket⟩, ?_⟩
      · rwa [UInt32.lt_iff_toNat_lt, hid, hid']
      · rwa [hid]
      · rwa [hid']
      · rw [hid, hid']
  nodup := by
    refine (search.indexOf blocks).nodup_candidatePairs.map fun p q hpq => ?_
    obtain ⟨hfirst, hsecond⟩ := Prod.mk.inj hpq
    cases p
    cases q
    rw [DocumentPair.mk.injEq]
    exact ⟨UInt32.toNat_inj.mp hfirst, UInt32.toNat_inj.mp hsecond⟩
  symm := by
    rintro a b ⟨x, y, hx, hy, band, hband, hhash⟩
    exact ⟨y, x, hy, hx, band, hband, hhash.symm⟩

/-- **The edges of the graph** are the pairs of similar blocks. -/
theorem listsPairs_edges : CloneGraph.ListsPairs (search.Similar blocks) (search.edges blocks) where
  mem_iff _ _ := h.mem_edges_iff
  nodup := (pairwise_edges search blocks).imp fun {p q} hpq heq => by
    subst heq
    exact absurd hpq (irrefl p)
  symm := Similar.symm

/-- The verified pairs with their scores, read off the edges. -/
theorem map_verified (f : ℕ → ℕ) : ((search.verified blocks).map fun pair =>
      (s(f pair.first.id.toNat, f pair.second.id.toNat), pair.similarity))
    = (search.edges blocks).map fun edge => (s(f edge.1, f edge.2), scoreAt blocks edge) := by
  rw [edges, List.map_map]
  exact List.map_congr_left fun pair hpair => by rw [h.similarity_eq hpair]; rfl

/-- **Every stage is carried along.** -/
theorem carries (h' : search.Ready blocks') (hπ : Renumbers π blocks blocks') :
    search.Carries π blocks blocks' where
  candidates := by
    have hperm := h.listsPairs_candidates.perm_renumbered h'.listsPairs_candidates
      (hπ.related_iff sharesBucket_unnumbered)
    rw [List.map_map, List.map_map] at hperm
    exact hperm
  verified := by
    have hperm := (h.listsPairs_edges.perm_renumbered h'.listsPairs_edges hπ.similar_iff).map
      fun pair => (pair, scoreOf blocks' pair)
    rw [List.map_map, List.map_map] at hperm
    have hscores : ((search.edges blocks).map fun edge =>
          (s(π edge.1, π edge.2), scoreAt blocks edge))
        = (search.edges blocks).map fun edge =>
          (s(π edge.1, π edge.2), scoreAt blocks' (π edge.1, π edge.2)) :=
      List.map_congr_left fun edge _ => by rw [hπ.scoreAt_eq]
    have hverified := h'.map_verified id
    rw [h.map_verified π, hscores]
    exact hperm.trans (List.Perm.of_eq hverified.symm)
  components :=
    h.listsClasses_classes.perm_renumbered h'.listsClasses_classes
      (CloneGraph.eqvGen_renumbered hπ.similar_iff)

/-- **The clones of the groups**, read off the components as sets. -/
theorem map_clones_found : ((search.found blocks).map fun group =>
      (group.clones : Multiset Clone).map some)
    = ((search.classes blocks).map List.toFinset).map fun members =>
        members.val.map fun block => blocks[block]?.map cloneOf := by
  have hshown : List.Forall₂ (fun members (group : CloneGroup Float) =>
      ((members.map fun block => blocks[block]?.map cloneOf : List (Option Clone)) : Multiset _)
        = (group.clones : Multiset Clone).map some)
      (search.classes blocks) (search.found blocks) :=
    h.forall₂_shows.imp fun _ _ hshows => by rw [← hshows.clones_eq, Multiset.map_coe]
  have hlists := List.forall₂_map_left_iff.mpr (List.forall₂_map_right_iff.mpr hshown)
  rw [List.forall₂_eq_eq_eq] at hlists
  rw [← hlists, List.map_map]
  refine List.map_congr_left fun members hmembers => ?_
  have hset := (h.listsClasses_classes.nodup_of_mem hmembers).dedup
  rw [Function.comp_apply, List.toFinset_val, hset, Multiset.map_coe]

/-- **The groups show the same clones** in every order of the blocks. -/
theorem perm_clones (h' : search.Ready blocks') (hπ : Renumbers π blocks blocks') :
    ((search.found blocks).map fun group => (group.clones : Multiset Clone)).Perm
      ((search.found blocks').map fun group => (group.clones : Multiset Clone)) := by
  have hclone : ∀ block, blocks'[π block]?.map cloneOf = blocks[block]?.map cloneOf :=
    hπ.map_eq cloneOf_unnumbered
  have hcomponents := (h.carries h' hπ).components.map fun members =>
    members.val.map fun block => blocks'[block]?.map cloneOf
  rw [← h'.map_clones_found, List.map_map] at hcomponents
  refine (List.map_perm_map_iff (Multiset.map_injective (Option.some_injective Clone))).mp ?_
  rw [List.map_map, List.map_map]
  refine (List.Perm.of_eq (h.map_clones_found.trans ?_)).trans hcomponents
  rw [List.map_map]
  refine List.map_congr_left fun members _ => ?_
  rw [Function.comp_apply, Function.comp_apply, toFinset_map_renumbering, Finset.map_val,
    Multiset.map_map]
  exact Multiset.map_congr rfl fun block _ => (hclone block).symm

end Ready

/-! ## Signatures that are too short -/

section Short

variable (hshort : ∀ x ∈ blocks,
  (search.sketcher.sketchDocument x).size < search.index.split.required)

include hshort

/-- **No block is stored** if all signatures are too short. -/
theorem indexOf_of_short : search.indexOf blocks = search.index := by
  rw [indexOf, Index.value_insertAll]
  refine List.foldlRecOn (motive := fun index => index = search.index) _ _ rfl ?_
  rintro index rfl signature hsignature
  obtain ⟨x, hx, rfl⟩ := List.mem_map.mp hsignature
  exact Index.insert_of_short _ (hshort x hx)

theorem candidatePairs_of_short : (search.indexOf blocks).candidatePairs = [] := by
  refine List.eq_nil_iff_forall_not_mem.mpr fun pair hpair => ?_
  obtain ⟨-, s, -, hs, -⟩ :=
    (Index.mem_candidatePairs_iff (Ready.follows_indexOf search blocks).sound).mp hpair
  rw [indexOf_of_short hshort, index, Index.signature?_empty] at hs
  exact absurd hs nofun

theorem verified_of_short : search.verified blocks = [] := by
  rw [verified, candidatePairs_of_short hshort]
  exact (Verifier.perm_verifyAll _ _ []).eq_nil

/-- Without verified pairs no blocks are connected. -/
theorem classes_of_short : search.classes blocks = [] := by
  have hclasses : CloneGraph.ListsClasses (CloneGraph.Linked blocks.length [])
      (search.classes blocks) := by
    rw [classes, verified_of_short hshort]
    exact CloneGraph.listsClasses_components (CloneGraph.represents_ofEdges blocks.length [])
  refine List.eq_nil_iff_forall_not_mem.mpr fun members hmembers => ?_
  obtain ⟨a, _, _, rfl⟩ :=
    CloneGraph.exists_eq_cons_cons ((hclasses.mem_iff members).mp hmembers).1
  obtain ⟨b, hne, hlinked⟩ := hclasses.exists_ne hmembers List.mem_cons_self
  obtain ⟨c, hjoined | hjoined⟩ := (hlinked.eq_or_joined.resolve_left hne).1
  · exact absurd hjoined.1 List.not_mem_nil
  · exact absurd hjoined.1 List.not_mem_nil

theorem found_of_short : search.found blocks = [] := by
  rw [found, classes_of_short hshort]
  rfl

/-- Where nothing is stored there is nothing to carry along. -/
theorem carries_of_short (hshort' : ∀ x ∈ blocks',
    (search.sketcher.sketchDocument x).size < search.index.split.required) :
    search.Carries π blocks blocks' where
  candidates := by
    rw [candidatePairs_of_short hshort, candidatePairs_of_short hshort']
    exact List.Perm.refl _
  verified := by
    rw [verified_of_short hshort, verified_of_short hshort']
    exact List.Perm.refl _
  components := by
    rw [classes_of_short hshort, classes_of_short hshort']
    exact List.Perm.refl _

end Short

/-- **Signatures without slots are too short**: a split has at least one band of one row. -/
theorem size_lt_required {minimumTokens shingleSize : Nat} {minimum : Float} {seed : UInt64}
    (hsearch : search = SimilarSearch.of minimumTokens shingleSize 0 minimum seed) (x : Document) :
    (search.sketcher.sketchDocument x).size < search.index.split.required := by
  rw [hsearch, of, Sketcher.size_sketchDocument_ofSeed]
  exact Nat.mul_pos (Split.bands_pos _) (Split.rows_pos _)

/-! ## The order of the files -/

/-- **Files in another order have the same blocks** under other numbers. -/
theorem exists_renumbers (search : SimilarSearch) {files files' : List SourceFile}
    (hperm : files.Perm files') :
    ∃ π, Renumbers π (search.blocks files) (search.blocks files') := by
  obtain ⟨π, hπ⟩ := exists_renumbering
    (hperm.flatMap_right (Block.placesOf search.minimumTokens))
  refine ⟨π, fun number => ?_⟩
  rw [getElem?_blocks, getElem?_blocks, Option.map_map, Option.map_map, Block.places, Block.places,
    hπ]
  rfl

theorem length_blocks_of_perm (search : SimilarSearch) {files files' : List SourceFile}
    (hperm : files.Perm files') :
    (search.blocks files).length = (search.blocks files').length := by
  have hplaces := (hperm.flatMap_right (Block.placesOf search.minimumTokens)).length_eq
  rwa [blocks, blocks, Shingler.numbered, Shingler.numbered, List.length_mapIdx, List.length_mapIdx]

/-- **A renumbering of the blocks of some files** carries every stage along, and the groups show the
same clones; if there are no slots, nothing is found at all. -/
theorem carries_and_perm_clones {minimumTokens shingleSize slots : Nat} {minimum : Float}
    {seed : UInt64} {files files' : List SourceFile}
    (hsearch : search = SimilarSearch.of minimumTokens shingleSize slots minimum seed)
    (hblocks : (search.blocks files).length < 2 ^ 32)
    (hblocks' : (search.blocks files').length < 2 ^ 32)
    (hπ : Renumbers π (search.blocks files) (search.blocks files')) :
    search.Carries π (search.blocks files) (search.blocks files')
      ∧ ((search.found (search.blocks files)).map fun group =>
          (group.clones : Multiset Clone)).Perm
        ((search.found (search.blocks files')).map fun group =>
          (group.clones : Multiset Clone)) := by
  rcases Nat.eq_zero_or_pos slots with rfl | hslots
  · have hshort := size_lt_required hsearch
    rw [found_of_short fun x _ => hshort x, found_of_short fun x _ => hshort x]
    exact ⟨carries_of_short (fun x _ => hshort x) fun x _ => hshort x, List.Perm.refl _⟩
  · have h := ready_blocks hsearch hslots hblocks
    have h' := ready_blocks hsearch hslots hblocks'
    exact ⟨h.carries h' hπ, h.perm_clones h' hπ⟩

/-- **The order of the files does not matter** — for any files with fewer than `2 ^ 32` blocks and
every choice of parameters, the same keys are returned in every order of the files, each as often.
What is returned is what is found among the blocks.  They are the same under other numbers, and no
renumbering of them changes the candidates, the verified pairs with their scores or the
components. -/
theorem found_in_any_order (minimumTokens shingleSize slots : Nat) (minimum : Float)
    (seed : UInt64) {files files' : List SourceFile} (hperm : files.Perm files') :
    let search := SimilarSearch.of minimumTokens shingleSize slots minimum seed
    let blocksOf := fun files : List SourceFile =>
      (search.shingler.allBlocks Gate.closed (Schedule.dealt 1) minimumTokens 0 files).value
    (blocksOf files).length < 2 ^ 32 →
      ((search.run files).value.map CloneGroup.key).Perm
          ((search.run files').value.map CloneGroup.key)
        ∧ (∀ files, (search.run files).value = search.found (blocksOf files))
        ∧ (∃ π, Renumbers π (blocksOf files) (blocksOf files'))
        ∧ ∀ π, Renumbers π (blocksOf files) (blocksOf files') →
          search.Carries π (blocksOf files) (blocksOf files') := by
  intro search blocksOf hblocks
  have heq : blocksOf = search.blocks := funext fun files => Shingler.value_allBlocks _ _ _ _ _ _
  rw [heq] at hblocks ⊢
  have hblocks' : (search.blocks files').length < 2 ^ 32 :=
    length_blocks_of_perm search hperm ▸ hblocks
  have hsome := exists_renumbers search hperm
  refine ⟨?_, search.value_run, hsome,
    fun π hπ => (carries_and_perm_clones rfl hblocks hblocks' hπ).1⟩
  obtain ⟨π, hπ⟩ := hsome
  rw [search.value_run, search.value_run]
  exact perm_keys (carries_and_perm_clones rfl hblocks hblocks' hπ).2

/-- Two files of one block each, `x = 1` and `y = 2`, swapped. -/
theorem found_in_any_order_swapped :
    let first : SourceFile :=
      ⟨"a", #[⟨.identifier, "x", 1, 1⟩, ⟨.operator, "=", 1, 3⟩, ⟨.literal, "1", 1, 5⟩], #[]⟩
    let second : SourceFile :=
      ⟨"b", #[⟨.identifier, "y", 4, 1⟩, ⟨.operator, "=", 4, 3⟩, ⟨.literal, "2", 4, 5⟩], #[]⟩
    let search := SimilarSearch.of 3 2 8 0.9 42
    let blocksOf := fun files : List SourceFile =>
      (search.shingler.allBlocks Gate.closed (Schedule.dealt 1) 3 0 files).value
    [first, second].Perm [second, first]
      ∧ (blocksOf [first, second]).length = 2
      ∧ ((search.run [first, second]).value.map CloneGroup.key).Perm
        ((search.run [second, first]).value.map CloneGroup.key)
      ∧ ∃ π, Renumbers π (blocksOf [first, second]) (blocksOf [second, first])
        ∧ search.Carries π (blocksOf [first, second]) (blocksOf [second, first]) := by
  intro first second search blocksOf
  have hperm : [first, second].Perm [second, first] := List.Perm.swap _ _ _
  have hlength : (blocksOf [first, second]).length = 2 := by
    dsimp only [blocksOf]
    rw [Shingler.value_allBlocks, Shingler.numbered, List.length_mapIdx]
    simp [Block.count, first, second]
  obtain ⟨hkeys, -, ⟨π, hπ⟩, hcarries⟩ := found_in_any_order 3 2 8 0.9 42 hperm
    (Nat.lt_of_le_of_lt (Nat.le_of_eq hlength) (by decide))
  exact ⟨hperm, hlength, hkeys, π, hπ, hcarries π hπ⟩

end Detect.SimilarSearch

end CodeClones
