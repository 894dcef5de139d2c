import CodeClones.Proofs.Detect.Component
import CodeClones.Proofs.Shingle.Renaming

/-!
# Proofs/Detect/Renamed — renamed copies are never missed

A renamed copy has the same hashes (`Shingler.hashesOf_of_renamed`), hence the same signature, the
same bucket in every band and the similarity one, which is at least every clamped minimum.  Nothing
on the way depends on how the signature is cut into bands, so renamed copies are in one group for
every choice of parameters (`renamed_in_one_group`).
-/

namespace CodeClones

open Log Parallel

namespace Detect.SimilarSearch

variable {search : SimilarSearch}

/-- **Documents with the same hashes are alike**, if they have any. -/
theorem alike_of_hashes_eq {x y : Document} (hhashes : x.hashes = y.hashes) (hne : x.hashes ≠ [])
    (hlines : ¬x.SharesLine y) : search.Alike x y where
  bucket := by
    refine ⟨0, search.index.split.bands_pos, ?_⟩
    rw [search.sketcher.slots_sketchDocument_congr hhashes]
  minimum_le := by
    rw [Document.jaccard, ← hhashes, Overlap.jaccard_self (List.toFinset_nonempty_iff _ |>.mpr hne)]
    exact (Double.clampUnit_spec search.minimum).2
  lines := hlines

/-- **Connected blocks are shown by one group.** -/
theorem Ready.exists_group {blocks : List Document} (h : search.Ready blocks) {a b : Nat}
    (hne : a ≠ b) (hab : Relation.EqvGen (search.Similar blocks) a b) :
    ∃ group ∈ search.found blocks, ∃ members, Shows search blocks members group
      ∧ a ∈ members ∧ b ∈ members := by
  obtain ⟨members, hmembers, ha, hb⟩ := h.exists_class hne hab
  obtain ⟨number, hlt, rfl⟩ := List.mem_iff_getElem.mp hmembers
  have hshows := h.forall₂_shows
  have hlt' : number < (search.found blocks).length := hshows.length_eq ▸ hlt
  exact ⟨_, List.getElem_mem hlt', _, hshows.get hlt hlt', ha, hb⟩

/-- **Blocks of renamed tokens are similar**, if a shingle fits into a block. -/
theorem similar_of_renamed (hrenames : search.shingler.renames = true)
    (hsize : search.shingler.size ≤ Order.atLeastOne search.minimumTokens) {files : List SourceFile}
    {i j : Nat} {x y : Document} {place copy : Block.Place} (hne : i ≠ j)
    (hx : (search.blocks files)[i]? = some x) (hy : (search.blocks files)[j]? = some y)
    (hplace : (Block.places search.minimumTokens files)[i]? = some place)
    (hcopy : (Block.places search.minimumTokens files)[j]? = some copy)
    (hrenamed : Token.Renamed (place.tokens search.minimumTokens).toList
      (copy.tokens search.minimumTokens).toList)
    (hlines : ¬x.SharesLine y) : search.Similar (search.blocks files) i j := by
  have hmem := List.mem_of_getElem? hplace
  have hfits : search.shingler.size ≤ (place.tokens search.minimumTokens).size := by
    rwa [Block.size_tokens hmem,
      ← Order.atLeastOne_of_pos (Block.size_pos_of_mem_places hmem)]
  have hhashes : x.hashes = y.hashes := by
    rw [hashes_of_place hx hplace, hashes_of_place hy hcopy]
    exact (Shingler.hashesOf_of_renamed hrenames hrenamed).symm
  have hsome : x.hashes ≠ [] := hashes_of_place hx hplace ▸ Shingler.hashesOf_ne_nil hfits
  exact ⟨hne, x, y, hx, hy, alike_of_hashes_eq hhashes hsome hlines⟩

/-- **Renamed copies are never missed** — for any files with fewer than `2 ^ 32` blocks, which lie
at the places in order, two blocks that correspond token by token under injective renamings of
identifiers and of literals, and that share no line, are in one group; whatever the seed, the
minimum similarity and the number of slots are, as long as a shingle fits into a block. -/
theorem renamed_in_one_group (files : List SourceFile) (minimumTokens shingleSize slots : Nat)
    (minimum : Float) (seed : UInt64) :
    let search := SimilarSearch.of minimumTokens shingleSize slots minimum seed
    let blocks := (search.shingler.allBlocks Gate.closed (Schedule.dealt 1) minimumTokens 0
      files).value
    let places := Block.places minimumTokens files
    1 ≤ slots → shingleSize ≤ minimumTokens → blocks.length < 2 ^ 32 →
      (∀ block : Nat, blocks[block]? = places[block]?.map fun place =>
        search.shingler.blockAt minimumTokens place (UInt32.ofNat block))
      ∧ ∀ ⦃i j : Nat⦄ ⦃x y : Document⦄ ⦃place copy : Block.Place⦄, i ≠ j →
        blocks[i]? = some x → blocks[j]? = some y →
        places[i]? = some place → places[j]? = some copy →
        Token.Renamed (place.tokens minimumTokens).toList (copy.tokens minimumTokens).toList →
        ¬x.SharesLine y →
        ∃ group ∈ (search.run files).value, ∃ members,
          search.Shows blocks members group ∧ i ∈ members ∧ j ∈ members := by
  intro search blocks places hslots hsize hblocks
  have heq : blocks = search.blocks files := Shingler.value_allBlocks _ _ _ _ _ _
  rw [heq] at hblocks ⊢
  refine ⟨search.getElem?_blocks files, ?_⟩
  intro i j x y place copy hne hx hy hplace hcopy hrenamed hlines
  have hsimilar : search.Similar (search.blocks files) i j :=
    similar_of_renamed rfl (Order.atLeastOne_mono hsize) hne hx hy hplace hcopy hrenamed hlines
  rw [search.value_run]
  exact (ready_blocks rfl hslots hblocks).exists_group hne (Relation.EqvGen.rel i j hsimilar)

/-- Two files of one block each, `x = 1` and `y = 2`. -/
theorem renamed_in_one_group_of_two :
    let files : List SourceFile :=
      [⟨"a", #[⟨.identifier, "x", 1, 1⟩, ⟨.operator, "=", 1, 3⟩, ⟨.literal, "1", 1, 5⟩], #[]⟩,
        ⟨"b", #[⟨.identifier, "y", 4, 1⟩, ⟨.operator, "=", 4, 3⟩, ⟨.literal, "2", 4, 5⟩], #[]⟩]
    let search := SimilarSearch.of 3 2 8 0.9 42
    let blocks := (search.shingler.allBlocks Gate.closed (Schedule.dealt 1) 3 0 files).value
    blocks.length = 2
      ∧ ∃ group ∈ (search.run files).value, ∃ members,
        search.Shows blocks members group ∧ 0 ∈ members ∧ 1 ∈ members := by
  intro files search blocks
  have hblocks : blocks = [search.shingler.blockAt 3 ⟨files[0], 0⟩ 0,
      search.shingler.blockAt 3 ⟨files[1], 0⟩ 1] :=
    (Shingler.value_allBlocks _ _ _ _ _ _).trans rfl
  have hrenamed : Token.Renamed files[0].tokens.toList files[1].tokens.toList := by
    refine ⟨fun _ => "y", fun _ => "2", ?_, ?_, ?_⟩
    · simp [files, Token.textsOf]
    · simp [files, Token.textsOf]
    · simp [files, Token.renamedText]
  have hlength : blocks.length = 2 := congrArg List.length hblocks
  have hmany : blocks.length < 2 ^ 32 := Nat.lt_of_le_of_lt (Nat.le_of_eq hlength) (by decide)
  refine ⟨hlength, (renamed_in_one_group files 3 2 8 0.9 42 (by decide) (by decide) hmany).2
    Nat.zero_ne_one (congrArg (·[0]?) hblocks) (congrArg (·[1]?) hblocks) rfl rfl hrenamed ?_⟩
  exact fun hshares => absurd hshares.1 (by decide)

end Detect.SimilarSearch

end CodeClones
