import CodeClones.Proofs.Index.History

/-!
# Proofs/Index/Candidates — every way of listing the candidates lists the colliding pairs

Two documents collide if both are stored and their signatures have the same hash in some band.  In a
sound index the pairs in the buckets are the colliding pairs (`mem_allPairs_iff`), and so are the
answers to the two queries (`mem_query_iff_collides`).  However the bands are shared out and in
whatever order the buckets are met, dropping repetitions leaves each of these pairs once.
-/

namespace CodeClones

/-! ## Handing over -/

section HandOver

variable {σ α : Type} {receive : σ → α → σ × Bool}

/-- A receiver that asks for more is handed the rest. -/
theorem handOver_cons {state next : σ} {a : α} (h : receive state a = (next, true))
    (entries : List α) :
    handOver receive state (a :: entries)
      = ((handOver receive next entries).1, (handOver receive next entries).2 + 1) := by
  rw [handOver, h]
  rfl

/-- **A receiver that never declines** gets every entry. -/
theorem handOver_of_goesOn (h : ∀ state a, (receive state a).2 = true) (state : σ)
    (entries : List α) :
    handOver receive state entries
      = (entries.foldl (fun state a => (receive state a).1) state, entries.length) := by
  induction entries generalizing state with
  | nil => rfl
  | cons a entries ih =>
    rw [handOver]
    dsimp only
    rw [if_pos (h state a), ih, List.foldl_cons, List.length_cons]

end HandOver

section FirstSights

variable {α : Type} [BEq α] [Hashable α] [LawfulBEq α]

theorem mem_firstSights {seen : Std.HashSet α} {entries : List α} {a : α} :
    a ∈ firstSights seen entries ↔ a ∈ entries ∧ a ∉ seen := by
  induction entries generalizing seen with
  | nil => simp [firstSights]
  | cons b entries ih =>
    rw [firstSights]
    by_cases hb : b ∈ seen
    · rw [if_pos (Std.HashSet.contains_iff_mem.mpr hb), ih, List.mem_cons]
      refine and_congr_left fun ha => ⟨Or.inr, fun hmem => hmem.resolve_left ?_⟩
      rintro rfl
      exact ha hb
    · rw [if_neg fun h => hb (Std.HashSet.contains_iff_mem.mp h), List.mem_cons, ih,
        Std.HashSet.mem_insert, beq_iff_eq, not_or, List.mem_cons]
      constructor
      · rintro (rfl | ⟨hmem, -, ha⟩)
        · exact ⟨Or.inl rfl, hb⟩
        · exact ⟨Or.inr hmem, ha⟩
      · rintro ⟨hmem, ha⟩
        by_cases hab : b = a
        · exact Or.inl hab.symm
        · exact Or.inr ⟨hmem.resolve_left (Ne.symm hab), hab, ha⟩

/-- **First occurrences do not repeat.** -/
theorem nodup_firstSights (seen : Std.HashSet α) (entries : List α) :
    (firstSights seen entries).Nodup := by
  induction entries generalizing seen with
  | nil => exact List.nodup_nil
  | cons a entries ih =>
    rw [firstSights]
    split
    · exact ih seen
    · refine List.nodup_cons.mpr ⟨fun hmem => ?_, ih (seen.insert a)⟩
      exact (mem_firstSights.mp hmem).2 Std.HashSet.mem_insert_self

end FirstSights

namespace Index

open Parallel

/-! ## Colliding documents -/

/-- **Two documents collide** if both are stored and their signatures have the same hash in some
band. -/
def Collides (index : Index) (a b : DocumentId) : Prop :=
  ∃ s t, index.signature? a = some s ∧ index.signature? b = some t
    ∧ ∃ band < index.split.bands,
      Signature.bandHash index.split s.slots band = Signature.bandHash index.split t.slots band

theorem Collides.symm {index : Index} {a b : DocumentId} (h : index.Collides a b) :
    index.Collides b a := by
  obtain ⟨s, t, hs, ht, band, hband, hhash⟩ := h
  exact ⟨t, s, ht, hs, band, hband, hhash.symm⟩

/-- The pairs in all buckets, band after band. -/
def allPairs (index : Index) : List DocumentPair :=
  (List.range index.split.bands).flatMap index.bandPairs

theorem of_of_lt {a b : DocumentId} (h : a < b) : DocumentPair.of a b = ⟨a, b⟩ := by
  rw [DocumentPair.of, if_pos h, if_pos h]

section Sound

variable {index : Index} (h : Sound index)

include h

/-- **The pairs in the buckets are the colliding pairs**, smaller number first. -/
theorem mem_allPairs_iff {pair : DocumentPair} :
    pair ∈ index.allPairs
      ↔ pair.first < pair.second ∧ index.Collides pair.first pair.second := by
  rw [allPairs, List.mem_flatMap]
  constructor
  · rintro ⟨band, hband, hpair⟩
    rw [List.mem_range] at hband
    obtain ⟨a, b, s, t, hs, ht, hne, hhash, rfl⟩ := (mem_bandPairs_iff h hband).mp hpair
    have hcollides : index.Collides a b := ⟨s, t, hs, ht, band, hband, hhash⟩
    rcases UInt32.lt_or_lt_of_ne hne with hlt | hlt
    · rw [of_of_lt hlt]
      exact ⟨hlt, hcollides⟩
    · rw [of_comm, of_of_lt hlt]
      exact ⟨hlt, hcollides.symm⟩
  · rintro ⟨hlt, s, t, hs, ht, band, hband, hhash⟩
    refine ⟨band, List.mem_range.mpr hband, (mem_bandPairs_iff h hband).mpr ?_⟩
    exact ⟨pair.first, pair.second, s, t, hs, ht, UInt32.ne_of_lt hlt, hhash, (of_of_lt hlt).symm⟩

theorem mem_candidatePairs_iff {pair : DocumentPair} :
    pair ∈ index.candidatePairs
      ↔ pair.first < pair.second ∧ index.Collides pair.first pair.second :=
  Order.mem_ascending.trans (mem_allPairs_iff h)

/-- **The answers to a stored signature** are the documents that collide with its own. -/
theorem mem_query_iff_collides {a b : DocumentId} :
    (∃ s, index.signature? a = some s ∧ b ∈ index.query s) ↔ b ≠ a ∧ index.Collides a b := by
  have hquery : ∀ {s}, index.signature? a = some s → (b ∈ index.query s ↔ b ≠ a
      ∧ ∃ band < index.split.bands, ∃ t, index.signature? b = some t
        ∧ Signature.bandHash index.split t.slots band
          = Signature.bandHash index.split s.slots band) := fun {s} hs => by
    rw [mem_query_iff h (h.long hs), h.own hs]
  constructor
  · rintro ⟨s, hs, hmem⟩
    obtain ⟨hne, band, hband, t, ht, hhash⟩ := (hquery hs).mp hmem
    exact ⟨hne, s, t, hs, ht, band, hband, hhash.symm⟩
  · rintro ⟨hne, s, t, hs, ht, band, hband, hhash⟩
    exact ⟨s, hs, (hquery hs).mpr ⟨hne, band, hband, t, ht, hhash.symm⟩⟩

end Sound

/-! ## Every way of listing -/

/-- **Candidates come strictly ascending.** -/
theorem pairwise_candidatePairs (index : Index) :
    index.candidatePairs.Pairwise fun p q => p.less q = true := by
  refine (Order.pairwise_ascending pair_le_trans pair_le_total pair_le_antisymm _).imp
    fun {p q} hpq => ?_
  by_contra hless
  refine hpq.2 (pair_le_antisymm p q hpq.1 ?_)
  rw [DocumentPair.le, Bool.not_eq_true', Bool.eq_false_of_not_eq_true hless]

theorem nodup_candidatePairs (index : Index) : index.candidatePairs.Nodup :=
  (Order.pairwise_ascending pair_le_trans pair_le_total pair_le_antisymm _).imp And.right

/-- **Sharing out the bands changes nothing.** -/
theorem candidatePairsSpread_eq (index : Index) (load : Workload index.split.bands) :
    index.candidatePairsSpread load = index.candidatePairs := by
  refine ascendingPairs_congr fun pair => ?_
  rw [Workload.mem_gather_iff, List.mem_flatMap]
  simp only [List.mem_range]

theorem candidatePairsUnder_eq (index : Index) (gate : Gate) (schedule : Schedule) :
    index.candidatePairsUnder gate schedule = index.candidatePairs := by
  rw [candidatePairsUnder]
  split
  · exact index.candidatePairsSpread_eq _
  · rfl

/-- **A traversal of an index** meets the buckets of each band once, in any order. -/
def Traverses (index : Index) (traversal : Traversal) : Prop :=
  List.Forall₂ List.Perm traversal index.traversal

theorem traversal_pairs (index : Index) :
    (index.traversal.flatMap fun band => band.flatMap fun bucket => bucketPairs bucket.2).Perm
      index.allPairs := by
  have htables : index.tables.toList
      = (List.range index.split.bands).filterMap fun band => index.tables[band]? := by
    have hread := Workload.filterMap_getElem?_range index.tables.toList
    rw [Vector.length_toList] at hread
    simpa using hread.symm
  rw [traversal, List.flatMap_map, htables, allPairs, List.filterMap_eq_flatMap_toList,
    List.flatMap_assoc]
  refine List.Perm.of_eq (List.flatMap_congr fun band _ => ?_)
  rw [bandPairs]
  cases index.tables[band]? <;> simp

/-- **On every traversal each candidate is met once.** -/
theorem perm_pairsMet {index : Index} {traversal : Traversal} (h : index.Traverses traversal) :
    (pairsMet traversal).Perm index.candidatePairs := by
  have hmet : (traversal.flatMap fun band => band.flatMap fun bucket => bucketPairs bucket.2).Perm
      index.allPairs :=
    (flatMap_perm (h.imp fun _ _ hperm => hperm.flatMap_right _)).trans index.traversal_pairs
  refine (List.perm_ext_iff_of_nodup (nodup_firstSights ∅ _) index.nodup_candidatePairs).mpr
    fun pair => ?_
  rw [mem_firstSights, hmet.mem_iff, candidatePairs, ascendingPairs, Order.mem_ascending]
  exact and_iff_left Std.HashSet.not_mem_empty

/-- **Every way of listing the candidates gives the colliding pairs** — after any history of an
index the list is strictly ascending, and a pair is in it exactly if its first number is smaller and
both documents collide, that is, if each is an answer to the stored signature of the other.  The
same list comes out for every sharing of the bands and under every gate; and on every traversal of
the buckets a receiver that never declines gets each of the pairs once, and their number is
returned. -/
theorem candidatePairs_every_way (bands rows : Nat) (history : List Operation) :
    let index := run (Split.ofCounts bands rows) history
    (index.candidatePairs.Pairwise fun p q => p.less q = true)
      ∧ (∀ a b, (⟨a, b⟩ ∈ index.candidatePairs ↔ a < b ∧ index.Collides a b)
        ∧ (⟨a, b⟩ ∈ index.candidatePairs
          ↔ a < b ∧ ∃ s, index.signature? a = some s ∧ b ∈ index.query s)
        ∧ (⟨a, b⟩ ∈ index.candidatePairs
          ↔ a < b ∧ ∃ t, index.signature? b = some t ∧ a ∈ index.query t))
      ∧ (∀ load, index.candidatePairsSpread load = index.candidatePairs)
      ∧ (∀ gate schedule, index.candidatePairsUnder gate schedule = index.candidatePairs)
      ∧ ∀ traversal, index.Traverses traversal →
        ∃ met : List DocumentPair, met.Perm index.candidatePairs
          ∧ ∀ {σ : Type} (receive : σ → DocumentPair → σ × Bool),
            (∀ state pair, (receive state pair).2 = true) → ∀ state,
            streamPairs traversal receive state
              = (met.foldl (fun state pair => (receive state pair).1) state,
                index.candidatePairs.length) := by
  intro index
  have h : Sound index := (follows_run (Split.ofCounts bands rows) history).sound
  have hmem : ∀ a b, ⟨a, b⟩ ∈ index.candidatePairs ↔ a < b ∧ index.Collides a b :=
    fun a b => mem_candidatePairs_iff h
  refine ⟨index.pairwise_candidatePairs, fun a b => ⟨hmem a b, ?_, ?_⟩,
    index.candidatePairsSpread_eq, index.candidatePairsUnder_eq, fun traversal htraversal => ?_⟩
  · rw [hmem, mem_query_iff_collides h]
    exact and_congr_right fun hlt => (and_iff_right (UInt32.ne_of_lt hlt).symm).symm
  · rw [hmem, mem_query_iff_collides h]
    exact and_congr_right fun hlt => ⟨fun hcollides => ⟨UInt32.ne_of_lt hlt, hcollides.symm⟩,
      fun hanswer => hanswer.2.symm⟩
  · have hperm := perm_pairsMet htraversal
    refine ⟨pairsMet traversal, hperm, fun receive hgoes state => ?_⟩
    rw [streamPairs, handOver_of_goesOn hgoes, hperm.length_eq]

/-- The buckets of each band may be met from the last to the first. -/
theorem traverses_reverse (index : Index) :
    index.Traverses (index.traversal.map List.reverse) :=
  List.forall₂_map_left_iff.mpr (List.forall₂_same.mpr fun band _ => List.reverse_perm band)

/-- Two documents with the same signature, the buckets met from the last to the first. -/
theorem candidatePairs_backwards :
    let index := run (Split.ofCounts 1 1) [.insert ⟨7, #[5]⟩, .insert ⟨3, #[5]⟩]
    index.Traverses (index.traversal.map List.reverse)
      ∧ ⟨3, 7⟩ ∈ index.candidatePairs
      ∧ (streamPairs (index.traversal.map List.reverse) (fun met pair => (pair :: met, true)) []).2
        = index.candidatePairs.length := by
  intro index
  have hevery := candidatePairs_every_way 1 1 [.insert ⟨7, #[5]⟩, .insert ⟨3, #[5]⟩]
  have hstored := (follows_run (Split.ofCounts 1 1)
    [.insert ⟨7, #[5]⟩, .insert ⟨3, #[5]⟩]).stored
  refine ⟨index.traverses_reverse,
    (hevery.2.1 3 7).1.mpr ⟨by decide, ⟨3, #[5]⟩, ⟨7, #[5]⟩, ?_, ?_, 0, ?_, rfl⟩, ?_⟩
  · exact (congrFun hstored 3).trans (by decide)
  · exact (congrFun hstored 7).trans (by decide)
  · exact index.split.bands_pos
  · obtain ⟨met, -, hstream⟩ := hevery.2.2.2.2 _ index.traverses_reverse
    rw [hstream (fun met pair => (pair :: met, true)) (fun _ _ => rfl)]

end Index

end CodeClones
