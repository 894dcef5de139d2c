import CodeClones.Proofs.Detect.Similar

/-!
# Proofs/Detect/Component — the groups are the components of similarity

The classes are disjoint, so the table of owners finds for every member the number of its class
(`getElem?_owners_iff`).  Every class has two members, hence a verified pair, and the mean is taken
over its verified pairs (`Ready.shows_groupOf`); the fallback is never used.  Together with
`Ready.listsClasses_classes` this gives `groups_are_components`.
-/

namespace CodeClones

open Log Parallel

namespace Detect.SimilarSearch

/-! ## Who owns a block -/

theorem getElem?_mark (owner : Option Nat) (members : List Nat) (owners : Array (Option Nat))
    (block : Nat) :
    (members.foldl (fun owners member => owners.setIfInBounds member owner) owners)[block]?
      = if block ∈ members then owners[block]?.map fun _ => owner else owners[block]? := by
  induction members generalizing owners with
  | nil => simp
  | cons member members ih =>
    rw [List.foldl_cons, ih, Array.getElem?_setIfInBounds]
    by_cases heq : member = block
    · subst heq
      by_cases hlt : member < owners.size <;> simp [hlt]
    · simp [heq, Ne.symm heq]

theorem owners_concat (blocks : Nat) (classes : List (List Nat)) (members : List Nat) :
    owners blocks (classes ++ [members])
      = members.foldl (fun owners member => owners.setIfInBounds member (some classes.length))
        (owners blocks classes) := by
  rw [owners, owners, List.zipIdx_append, List.foldl_append]
  simp

theorem size_mark (owner : Option Nat) (members : List Nat) (owners : Array (Option Nat)) :
    (members.foldl (fun owners member => owners.setIfInBounds member owner) owners).size
      = owners.size := by
  induction members generalizing owners with
  | nil => rfl
  | cons member members ih => rw [List.foldl_cons, ih, Array.size_setIfInBounds]

theorem size_owners (blocks : Nat) (classes : List (List Nat)) :
    (owners blocks classes).size = blocks := by
  induction classes using List.reverseRecOn with
  | nil => exact Array.size_replicate
  | append_singleton classes members ih => rw [owners_concat, size_mark, ih]

theorem exists_concat_iff {classes : List (List Nat)} {members : List Nat} {block number : Nat} :
    (∃ c, (classes ++ [members])[number]? = some c ∧ block ∈ c)
      ↔ (∃ c, classes[number]? = some c ∧ block ∈ c)
        ∨ number = classes.length ∧ block ∈ members := by
  rcases Nat.lt_trichotomy number classes.length with hlt | rfl | hgt
  · rw [List.getElem?_append_left hlt]
    exact (or_iff_left fun hlast => Nat.ne_of_lt hlt hlast.1).symm
  · simp
  · rw [List.getElem?_eq_none (by rw [List.length_append, List.length_singleton]; omega),
      List.getElem?_eq_none (Nat.le_of_lt hgt)]
    simp [Nat.ne_of_gt hgt]

/-- **The table of owners finds the class of each member.** -/
theorem getElem?_owners_iff {blocks : Nat} {classes : List (List Nat)}
    (h : classes.Pairwise List.Disjoint) {block number : Nat} (hblock : block < blocks) :
    (owners blocks classes)[block]? = some (some number)
      ↔ ∃ members, classes[number]? = some members ∧ block ∈ members := by
  induction classes using List.reverseRecOn generalizing number with
  | nil => simp [owners, hblock]
  | append_singleton classes members ih =>
    obtain ⟨hclasses, -, hnew⟩ := List.pairwise_append.mp h
    have hblock' : block < (owners blocks classes).size := by rwa [size_owners]
    rw [owners_concat, getElem?_mark, exists_concat_iff]
    split
    · next hmem =>
      rw [Array.getElem?_eq_getElem hblock', Option.map_some, Option.some_inj, Option.some_inj]
      refine ⟨fun hnumber => Or.inr ⟨hnumber.symm, hmem⟩, fun hfound => ?_⟩
      refine (hfound.resolve_left ?_).1.symm
      rintro ⟨c, hc, hblockc⟩
      exact hnew c (List.mem_of_getElem? hc) members (List.mem_singleton_self _) hblockc hmem
    · next hmem =>
      rw [ih hclasses]
      exact (or_iff_left fun hnumber => hmem hnumber.2).symm

/-! ## What a group shows -/

/-- The score of two blocks, by their numbers. -/
def scoreAt (blocks : List Document) (pair : Nat × Nat) : Float :=
  match blocks[pair.1]?, blocks[pair.2]? with
  | some x, some y => (x.jaccard y).toFloat
  | _, _ => 0

/-- **What the group of some blocks shows** — one clone for each block, and the mean score of its
pairs of similar blocks, each taken once and summed in ascending order; there is at least one. -/
structure Shows (search : SimilarSearch) (blocks : List Document) (members : List Nat)
    (group : CloneGroup Float) : Prop where
  kind_eq : group.kind = .semantic
  clones_eq : group.clones.map some = members.map fun block => blocks[block]?.map cloneOf
  two_le : 2 ≤ group.clones.length
  fingerprint_eq : group.fingerprint = String.intercalate "-" (members.map toString)
  similarity_eq : ∃ pairs : List (Nat × Nat), pairs ≠ []
    ∧ pairs.Pairwise (Prod.Lex (· < ·) (· < ·))
    ∧ (∀ a b, (a, b) ∈ pairs ↔ a ∈ members ∧ a < b ∧ search.Similar blocks a b)
    ∧ group.similarity
      = (pairs.map (scoreAt blocks)).foldl (fun sum score => sum + score) 0
        / Float.ofNat pairs.length

namespace Ready

variable {search : SimilarSearch} {blocks : List Document} (h : search.Ready blocks)

include h

theorem disjoint_classes : (search.classes blocks).Pairwise List.Disjoint :=
  h.listsClasses_classes.disjoint

/-- A block that is connected to another one has an edge. -/
theorem exists_joined {a b : Nat} (hne : a ≠ b)
    (hab : Relation.EqvGen (search.Similar blocks) a b) :
    ∃ other, CloneGraph.Joined blocks.length (search.edges blocks) a other
      ∨ CloneGraph.Joined blocks.length (search.edges blocks) other a := by
  rw [← h.linked_eq] at hab
  exact (hab.eq_or_joined.resolve_left hne).1

theorem lt_length_of_connected {a b : Nat} (hne : a ≠ b)
    (hab : Relation.EqvGen (search.Similar blocks) a b) : a < blocks.length := by
  obtain ⟨other, hjoined⟩ := h.exists_joined hne hab
  exact hjoined.elim (fun hjoined => hjoined.2.2.1) fun hjoined => hjoined.2.2.2

theorem lt_length_of_mem {members : List Nat} (hmembers : members ∈ search.classes blocks)
    {block : Nat} (hblock : block ∈ members) : block < blocks.length := by
  obtain ⟨other, hne, hconnected⟩ := h.listsClasses_classes.exists_ne hmembers hblock
  exact h.lt_length_of_connected hne hconnected

/-- **Connected blocks are in one class.** -/
theorem exists_class {a b : Nat} (hne : a ≠ b)
    (hab : Relation.EqvGen (search.Similar blocks) a b) :
    ∃ members ∈ search.classes blocks, a ∈ members ∧ b ∈ members :=
  h.listsClasses_classes.exists_mem (Relation.EqvGen.is_equivalence _) h.lt_length_of_connected
    hne hab

omit h in
/-- **The verified pairs come in strictly ascending order.** -/
theorem pairwise_edges (search : SimilarSearch) (blocks : List Document) :
    (search.edges blocks).Pairwise (Prod.Lex (· < ·) (· < ·)) := by
  have hnodup : ((search.verified blocks).map VerifiedPair.numbers).Nodup :=
    Verifier.nodup_verifyAll (DocumentTable.own_ofList blocks)
      (search.indexOf blocks).nodup_candidatePairs
  have hsorted := VerifiedPair.pairwise_sort ((search.indexOf blocks).candidatePairs.filterMap
    ((Verifier.ofMinimum search.minimum).verify? (DocumentTable.ofList blocks)))
  refine List.pairwise_map.mpr ((hsorted.and (List.pairwise_map.mp hnodup)).imp ?_)
  intro p q hpq
  obtain ⟨hle, hne⟩ := hpq
  rw [VerifiedPair.le_eq_numbers, Index.pair_le_iff] at hle
  rw [Prod.lex_def]
  refine hle.imp_right fun hle => ⟨hle.1, Nat.lt_of_le_of_ne hle.2 fun heq => hne ?_⟩
  exact DocumentPair.mk.injEq _ _ _ _ ▸ ⟨UInt32.toNat_inj.mp hle.1, UInt32.toNat_inj.mp heq⟩

/-- The score of a verified pair is that of its numbers. -/
theorem similarity_eq {pair : VerifiedPair} (hpair : pair ∈ search.verified blocks) :
    pair.similarity = scoreAt blocks pair.ends := by
  obtain ⟨hfirst, hsecond, -, -, hsimilarity⟩ := h.mem_verified_iff.mp hpair
  rw [scoreAt, VerifiedPair.ends, hfirst, hsecond, hsimilarity]

/-- **The mean of some verified pairs.** -/
theorem meanSimilarity_eq (fallback : Float) {pairs : List VerifiedPair} (hne : pairs ≠ [])
    (hpairs : ∀ pair ∈ pairs, pair ∈ search.verified blocks) :
    meanSimilarity fallback pairs
      = ((pairs.map VerifiedPair.ends).map (scoreAt blocks)).foldl (fun sum score => sum + score) 0
        / Float.ofNat (pairs.map VerifiedPair.ends).length := by
  have hscores : (pairs.map VerifiedPair.ends).map (scoreAt blocks)
      = pairs.map VerifiedPair.similarity := by
    rw [List.map_map]
    exact List.map_congr_left fun pair hpair => (h.similarity_eq (hpairs pair hpair)).symm
  rw [meanSimilarity, if_neg (by rwa [List.isEmpty_iff]), hscores, List.foldl_map, List.length_map]

/-- The verified pairs of a class are those that start in it. -/
theorem mem_pairsWithin_iff {members : List Nat} {number : Nat}
    (hnumber : (search.classes blocks)[number]? = some members) {pair : VerifiedPair} :
    pair ∈ pairsWithin (owners blocks.length (search.classes blocks)) number
        (search.verified blocks)
      ↔ pair ∈ search.verified blocks ∧ pair.first.id.toNat ∈ members := by
  rw [pairsWithin, List.mem_filter, beq_iff_eq]
  refine and_congr_right fun hpair => ?_
  obtain ⟨hfirst, -⟩ := h.mem_verified_iff.mp hpair
  rw [getElem?_owners_iff h.disjoint_classes (List.getElem?_eq_some_iff.mp hfirst).1, hnumber]
  simp

theorem mem_ends_iff {members : List Nat} {number : Nat}
    (hnumber : (search.classes blocks)[number]? = some members) (a b : Nat) :
    (a, b) ∈ (pairsWithin (owners blocks.length (search.classes blocks)) number
        (search.verified blocks)).map VerifiedPair.ends
      ↔ a ∈ members ∧ a < b ∧ search.Similar blocks a b := by
  rw [← h.mem_edges_iff, edges, List.mem_map, List.mem_map]
  constructor
  · rintro ⟨pair, hpair, hends⟩
    obtain ⟨hverified, hmem⟩ := (h.mem_pairsWithin_iff hnumber).mp hpair
    obtain ⟨rfl, rfl⟩ := Prod.mk.inj hends
    exact ⟨hmem, pair, hverified, rfl⟩
  · rintro ⟨ha, pair, hverified, hends⟩
    obtain ⟨rfl, rfl⟩ := Prod.mk.inj hends
    exact ⟨pair, (h.mem_pairsWithin_iff hnumber).mpr ⟨hverified, ha⟩, rfl⟩

/-- **Every class has a verified pair.** -/
theorem exists_mem_ends {members : List Nat} (hmembers : members ∈ search.classes blocks) :
    ∃ a ∈ members, ∃ b, a < b ∧ search.Similar blocks a b := by
  obtain ⟨htwo, -, hwhole⟩ := (h.listsClasses_classes.mem_iff members).mp hmembers
  obtain ⟨a, _, _, rfl⟩ := CloneGraph.exists_eq_cons_cons htwo
  obtain ⟨other, hne, hconnected⟩ := h.listsClasses_classes.exists_ne hmembers List.mem_cons_self
  obtain ⟨b, hjoined | hjoined⟩ := h.exists_joined hne hconnected
  · exact ⟨a, List.mem_cons_self, b, h.joined_edges_iff.mp hjoined⟩
  · obtain ⟨hlt, hsimilar⟩ := h.joined_edges_iff.mp hjoined
    refine ⟨b, (hwhole a List.mem_cons_self b).mpr ?_, a, hlt, hsimilar⟩
    exact Relation.EqvGen.rel a b hsimilar.symm

/-- No block of a class is left out of its group. -/
theorem clones_groupOf {members : List Nat} (hmembers : members ∈ search.classes blocks) :
    (members.filterMap fun block => blocks.toArray[block]?.map cloneOf).map some
      = members.map fun block => blocks[block]?.map cloneOf := by
  rw [List.map_filterMap, List.filterMap_eq_map_iff_forall_eq_some]
  intro block hblock
  rw [List.getElem?_toArray, List.getElem?_eq_getElem (h.lt_length_of_mem hmembers hblock)]
  rfl

/-- **What the group of a class shows.** -/
theorem shows_groupOf {members : List Nat} {number : Nat}
    (hnumber : (search.classes blocks)[number]? = some members) :
    Shows search blocks members (search.groupOf blocks.toArray
      (owners blocks.length (search.classes blocks)) (search.verified blocks) members number) := by
  have hmembers := List.mem_of_getElem? hnumber
  have hclones := h.clones_groupOf hmembers
  have hmem := h.mem_ends_iff hnumber
  obtain ⟨within, hwithin⟩ : ∃ within, within = pairsWithin
    (owners blocks.length (search.classes blocks)) number (search.verified blocks) := ⟨_, rfl⟩
  rw [← hwithin] at hmem
  have hne : within.map VerifiedPair.ends ≠ [] := by
    obtain ⟨a, ha, b, hab⟩ := h.exists_mem_ends hmembers
    exact List.ne_nil_of_mem ((hmem a b).mpr ⟨ha, hab⟩)
  refine ⟨rfl, hclones, ?_, rfl, within.map VerifiedPair.ends, hne, ?_, hmem, ?_⟩
  · have hlength := congrArg List.length hclones
    rw [List.length_map, List.length_map] at hlength
    exact hlength ▸ ((h.listsClasses_classes.mem_iff members).mp hmembers).1
  · rw [hwithin]
    exact (pairwise_edges search blocks).sublist (List.filter_sublist.map _)
  · have hverified : ∀ pair ∈ within, pair ∈ search.verified blocks := fun pair hpair =>
      (List.mem_filter.mp (hwithin ▸ hpair)).1
    rw [groupOf, ← hwithin]
    exact h.meanSimilarity_eq search.minimum (List.map_eq_nil_iff.not.mp hne) hverified

end Ready

/-! ## The groups of a search -/

/-- **Every number that is used as a position is in range** — the members of the classes, both ends
of every verified pair, and the number of the class that its first block belongs to. -/
structure InRange (search : SimilarSearch) (blocks : List Document) : Prop where
  members : ∀ members ∈ search.classes blocks, ∀ block ∈ members, block < blocks.length
  ends : ∀ pair ∈ search.verified blocks, pair.ends.1 < blocks.length ∧ pair.ends.2 < blocks.length
  owner : ∀ pair ∈ search.verified blocks, ∃ number < (search.classes blocks).length,
    (owners blocks.length (search.classes blocks))[pair.ends.1]? = some (some number)

theorem forall₂_zipIdx_map {α β : Type} {r : α → β → Prop} (f : α × Nat → β) (entries : List α)
    (h : ∀ number entry, entries[number]? = some entry → r entry (f (entry, number))) :
    List.Forall₂ r entries (entries.zipIdx.map f) := by
  refine List.forall₂_iff_get.mpr ⟨by simp, fun number hnumber hnumber' => ?_⟩
  have hentry := h number _ (List.getElem?_eq_getElem hnumber)
  simpa using hentry

namespace Ready

variable {search : SimilarSearch} {blocks : List Document} (h : search.Ready blocks)

include h

theorem inRange : search.InRange blocks := by
  have hends : ∀ pair ∈ search.verified blocks,
      pair.ends.1 < blocks.length ∧ pair.ends.2 < blocks.length := fun pair hpair => by
    obtain ⟨hfirst, hsecond, -⟩ := h.mem_verified_iff.mp hpair
    exact ⟨(List.getElem?_eq_some_iff.mp hfirst).1, (List.getElem?_eq_some_iff.mp hsecond).1⟩
  refine ⟨fun members hmembers block => h.lt_length_of_mem hmembers, hends, fun pair hpair => ?_⟩
  obtain ⟨-, hsimilar⟩ := h.mem_edges_iff.mp (List.mem_map_of_mem hpair)
  obtain ⟨members, hmembers, hmem, -⟩ :=
    h.exists_class hsimilar.1 (Relation.EqvGen.rel _ _ hsimilar)
  obtain ⟨number, hnumber⟩ := List.mem_iff_getElem?.mp hmembers
  refine ⟨number, (List.getElem?_eq_some_iff.mp hnumber).1, ?_⟩
  exact (getElem?_owners_iff h.disjoint_classes (hends pair hpair).1).mpr ⟨members, hnumber, hmem⟩

theorem forall₂_shows :
    List.Forall₂ (Shows search blocks) (search.classes blocks) (search.found blocks) :=
  forall₂_zipIdx_map _ _ fun _ _ hnumber => h.shows_groupOf hnumber

end Ready

/-- **A search is ready for the blocks of any files**, if there are not too many of them and a
signature has at least one slot. -/
theorem ready_blocks {minimumTokens shingleSize slots : Nat} {minimum : Float} {seed : UInt64}
    {files : List SourceFile} {search : SimilarSearch}
    (hsearch : search = SimilarSearch.of minimumTokens shingleSize slots minimum seed)
    (hslots : 1 ≤ slots) (hblocks : (search.blocks files).length < 2 ^ 32) :
    search.Ready (search.blocks files) where
  numbered i x hx := by
    have hlt := (List.getElem?_eq_some_iff.mp hx).1
    rw [getElem?_blocks] at hx
    obtain ⟨place, -, rfl⟩ := Option.map_eq_some_iff.mp hx
    rw [Shingler.blockAt_id]
    exact UInt32.toNat_ofNat_of_lt (Nat.lt_trans hlt hblocks)
  long x _ := by
    rw [hsearch]
    exact Sketcher.required_le_size hslots minimum seed x
  ascending x hx := by
    obtain ⟨i, hi⟩ := List.mem_iff_getElem?.mp hx
    rw [getElem?_blocks] at hi
    obtain ⟨place, -, rfl⟩ := Option.map_eq_some_iff.mp hi
    exact Order.pairwise_ascendingWords _

/-- **The groups are the components of similarity** — for any files with fewer than `2 ^ 32` blocks
the classes of connected blocks, at least two in each, are listed with ascending members and by
their smallest member; no block is in two of them.  The groups show these classes one for one, each
with the mean score of its verified pairs, of which there is at least one; and every number that is
used as a position on the way is in range. -/
theorem groups_are_components (files : List SourceFile) (minimumTokens shingleSize slots : Nat)
    (minimum : Float) (seed : UInt64) :
    let search := SimilarSearch.of minimumTokens shingleSize slots minimum seed
    let blocks := (search.shingler.allBlocks Gate.closed (Schedule.dealt 1) minimumTokens 0
      files).value
    1 ≤ slots → blocks.length < 2 ^ 32 →
      CloneGraph.ListsClasses (Relation.EqvGen (search.Similar blocks)) (search.classes blocks)
        ∧ (search.classes blocks).Pairwise List.Disjoint
        ∧ List.Forall₂ (search.Shows blocks) (search.classes blocks) (search.run files).value
        ∧ (search.run files).value
          = search.groupsOf blocks (search.verified blocks) (search.classes blocks)
        ∧ search.InRange blocks := by
  intro search blocks hslots hblocks
  have heq : blocks = search.blocks files := Shingler.value_allBlocks _ _ _ _ _ _
  rw [heq] at hblocks ⊢
  have h := ready_blocks rfl hslots hblocks
  rw [search.value_run]
  exact ⟨h.listsClasses_classes, h.disjoint_classes, h.forall₂_shows, rfl, h.inRange⟩

/-- Three overlapping blocks of one file. -/
theorem groups_are_components_of_three :
    let files : List SourceFile := [⟨"a", #[⟨.identifier, "x", 1, 1⟩, ⟨.operator, "=", 1, 3⟩,
      ⟨.literal, "1", 2, 1⟩, ⟨.punctuation, ";", 3, 1⟩], #[]⟩]
    let search := SimilarSearch.of 2 1 8 0.5 42
    let blocks := (search.shingler.allBlocks Gate.closed (Schedule.dealt 1) 2 0 files).value
    blocks.length = 3
      ∧ CloneGraph.ListsClasses (Relation.EqvGen (search.Similar blocks)) (search.classes blocks)
      ∧ List.Forall₂ (search.Shows blocks) (search.classes blocks) (search.run files).value
      ∧ search.InRange blocks := by
  intro files search blocks
  have hlength : blocks.length = 3 :=
    (congrArg List.length (Shingler.value_allBlocks _ _ _ _ _ _)).trans rfl
  obtain ⟨hclasses, -, hshows, -, hrange⟩ := groups_are_components files 2 1 8 0.5 42 (by decide)
    (Nat.lt_of_le_of_lt (Nat.le_of_eq hlength) (by decide))
  exact ⟨hlength, hclasses, hshows, hrange⟩

end Detect.SimilarSearch

end CodeClones
