import CodeClones.Index.Candidates
import CodeClones.Proofs.Index.Basic
import CodeClones.Proofs.Order.Distinct
import CodeClones.Proofs.Parallel.Workload

/-!
# Proofs/Index/Agreement — the stored signatures decide every answer

In a sound index a bucket holds exactly the numbers whose stored signatures have its hash
(`mem_bucket_iff`).  So two sound indexes with the same split and the same stored signatures answer
every question alike (`agrees_of_sound`), whatever the order in which their buckets were filled.
-/

namespace CodeClones.Index

open BandTable Parallel

/-! ## What is in a bucket -/

section Bucket

variable {index : Index} (h : Sound index) {band : Nat} {table : BandTable}

include h

/-- **A bucket holds the numbers whose stored signatures have its hash.** -/
theorem mem_bucket_iff (htable : index.tables[band]? = some table) {hash : UInt64}
    {id : DocumentId} : id ∈ table.bucket hash
      ↔ ∃ stored, index.signature? id = some stored
        ∧ Signature.bandHash index.split stored.slots band = hash := by
  have hcount := h.files.count htable hash id
  rw [← List.count_pos_iff, hcount]
  rcases index.signature? id with - | stored
  · simp
  · rw [Option.any_some, isFiledAt]
    by_cases heq : Signature.bandHash index.split stored.slots band = hash
    · rw [if_pos (beq_iff_eq.mpr heq)]
      exact iff_of_true Nat.one_pos ⟨stored, rfl, heq⟩
    · rw [if_neg (by rwa [beq_iff_eq])]
      refine iff_of_false (Nat.lt_irrefl 0) ?_
      rintro ⟨_, hstored, heq'⟩
      exact heq (Option.some.inj hstored ▸ heq')

/-- The documents in the buckets of a signature. -/
theorem mem_bucketMates_iff {slots : Array UInt64} {id : DocumentId} :
    id ∈ index.bucketMates slots
      ↔ ∃ band < index.split.bands, ∃ stored, index.signature? id = some stored
        ∧ Signature.bandHash index.split stored.slots band
          = Signature.bandHash index.split slots band := by
  rw [bucketMates, List.mem_flatMap]
  constructor
  · rintro ⟨band, -, hmem⟩
    exact ⟨band, band.isLt, (mem_bucket_iff h (Vector.getElem?_eq_getElem band.isLt)).mp hmem⟩
  · rintro ⟨band, hband, hstored⟩
    exact ⟨⟨band, hband⟩, List.mem_finRange _,
      (mem_bucket_iff h (Vector.getElem?_eq_getElem hband)).mpr hstored⟩

/-- **The answers to a signature** that is long enough are the other documents whose stored
signatures have the same hash in some band. -/
theorem mem_query_iff {signature : Signature} (hlong : index.split.required ≤ signature.size)
    {id : DocumentId} : id ∈ index.query signature
      ↔ id ≠ signature.id ∧ ∃ band < index.split.bands, ∃ stored,
        index.signature? id = some stored ∧ Signature.bandHash index.split stored.slots band
          = Signature.bandHash index.split signature.slots band := by
  rw [query, if_pos (accepts_iff.mpr hlong), List.mem_filter, ascendingIds, Order.mem_ascending,
    mem_bucketMates_iff h, bne_iff_ne, and_comm]

end Bucket

/-! ## Pairs -/

theorem of_comm (a b : DocumentId) : DocumentPair.of a b = DocumentPair.of b a := by
  rw [DocumentPair.of, DocumentPair.of]
  by_cases hab : a < b
  · rw [if_pos hab, if_pos hab, if_neg (UInt32.lt_asymm hab), if_neg (UInt32.lt_asymm hab)]
  · by_cases hba : b < a
    · rw [if_neg hab, if_neg hab, if_pos hba, if_pos hba]
    · rw [UInt32.le_antisymm (UInt32.not_lt.mp hba) (UInt32.not_lt.mp hab)]

theorem mem_bucketPairs_iff {ids : List DocumentId} {pair : DocumentPair} :
    pair ∈ bucketPairs ids ↔ ∃ a ∈ ids, ∃ b ∈ ids, a ≠ b ∧ pair = DocumentPair.of a b := by
  induction ids with
  | nil => simp [bucketPairs]
  | cons id ids ih =>
    rw [bucketPairs, List.mem_append, ih]
    constructor
    · rintro (hmem | ⟨a, ha, b, hb, hne, rfl⟩)
      · obtain ⟨b, hb, rfl⟩ := List.mem_map.mp hmem
        obtain ⟨hb, hne⟩ := List.mem_filter.mp hb
        exact ⟨id, List.mem_cons_self, b, List.mem_cons_of_mem id hb, Ne.symm (by simpa using hne),
          rfl⟩
      · exact ⟨a, List.mem_cons_of_mem id ha, b, List.mem_cons_of_mem id hb, hne, rfl⟩
    · have hhead : ∀ b ∈ ids, id ≠ b →
          DocumentPair.of id b ∈ (ids.filter fun other => other != id).map (DocumentPair.of id) :=
        fun b hb hne => List.mem_map_of_mem (List.mem_filter.mpr ⟨hb, by simpa using hne.symm⟩)
      rintro ⟨a, ha, b, hb, hne, rfl⟩
      rcases List.mem_cons.mp ha with rfl | ha'
      · rcases List.mem_cons.mp hb with rfl | hb'
        · exact absurd rfl hne
        · exact Or.inl (hhead b hb' hne)
      · rcases List.mem_cons.mp hb with rfl | hb'
        · rw [of_comm]
          exact Or.inl (hhead a ha' hne.symm)
        · exact Or.inr ⟨a, ha', b, hb', hne, rfl⟩

/-- **The pairs of a band** are those of different documents whose stored signatures have the same
hash there. -/
theorem mem_bandPairs_iff {index : Index} (h : Sound index) {band : Nat}
    (hband : band < index.split.bands) {pair : DocumentPair} :
    pair ∈ index.bandPairs band
      ↔ ∃ a b s t, index.signature? a = some s ∧ index.signature? b = some t ∧ a ≠ b
        ∧ Signature.bandHash index.split s.slots band = Signature.bandHash index.split t.slots band
        ∧ pair = DocumentPair.of a b := by
  have htable : index.tables[band]? = some index.tables[band] := Vector.getElem?_eq_getElem hband
  rw [bandPairs, htable]
  dsimp only
  rw [List.mem_flatMap]
  constructor
  · rintro ⟨⟨hash, ids⟩, hmem, hpair⟩
    have hids : index.tables[band].bucket hash = ids := by
      rw [bucket, Std.HashMap.getD_eq_getD_getElem?,
        Std.HashMap.mem_toList_iff_getElem?_eq_some.mp hmem, Option.getD_some]
    obtain ⟨a, ha, b, hb, hne, rfl⟩ := mem_bucketPairs_iff.mp hpair
    obtain ⟨s, hs, hhash⟩ := (mem_bucket_iff h htable).mp (hids.symm ▸ ha)
    obtain ⟨t, ht, hhash'⟩ := (mem_bucket_iff h htable).mp (hids.symm ▸ hb)
    exact ⟨a, b, s, t, hs, ht, hne, hhash.trans hhash'.symm, rfl⟩
  · rintro ⟨a, b, s, t, hs, ht, hne, hhash, rfl⟩
    have ha := (mem_bucket_iff h htable).mpr ⟨s, hs, rfl⟩
    have hb := (mem_bucket_iff h htable).mpr ⟨t, ht, hhash.symm⟩
    rcases hfound : index.tables[band][Signature.bandHash index.split s.slots band]? with - | ids
    · rw [bucket, Std.HashMap.getD_eq_getD_getElem?, hfound] at ha
      exact absurd ha List.not_mem_nil
    · rw [bucket, Std.HashMap.getD_eq_getD_getElem?, hfound, Option.getD_some] at ha hb
      exact ⟨(_, ids), Std.HashMap.mem_toList_iff_getElem?_eq_some.mpr hfound,
        mem_bucketPairs_iff.mpr ⟨a, ha, b, hb, hne, rfl⟩⟩

/-! ## Ascending lists of numbers and pairs -/

theorem id_le_trans (a b c : DocumentId) (hab : decide (a ≤ b) = true)
    (hbc : decide (b ≤ c) = true) : decide (a ≤ c) = true :=
  decide_eq_true (UInt32.le_trans (of_decide_eq_true hab) (of_decide_eq_true hbc))

theorem id_le_total (a b : DocumentId) : (decide (a ≤ b) || decide (b ≤ a)) = true := by
  rw [Bool.or_eq_true, decide_eq_true_iff, decide_eq_true_iff]
  exact UInt32.le_total a b

theorem id_le_antisymm (a b : DocumentId) (hab : decide (a ≤ b) = true)
    (hba : decide (b ≤ a) = true) : a = b :=
  UInt32.le_antisymm (of_decide_eq_true hab) (of_decide_eq_true hba)

theorem ascendingIds_congr {as bs : List DocumentId} (h : ∀ id, id ∈ as ↔ id ∈ bs) :
    ascendingIds as = ascendingIds bs :=
  Order.ascending_congr id_le_trans id_le_total id_le_antisymm h

/-- **Ascending numbers are strictly ascending.** -/
theorem pairwise_ascendingIds (ids : List DocumentId) :
    (ascendingIds ids).Pairwise (· < ·) :=
  (Order.pairwise_ascending id_le_trans id_le_total id_le_antisymm ids).imp fun hab =>
    UInt32.lt_of_le_of_ne (of_decide_eq_true hab.1) hab.2

theorem pair_le_iff {a b : DocumentPair} : DocumentPair.le a b = true
    ↔ a.first.toNat < b.first.toNat
      ∨ a.first.toNat = b.first.toNat ∧ a.second.toNat ≤ b.second.toNat := by
  rw [DocumentPair.le, DocumentPair.less, Bool.not_eq_true', ← Bool.not_eq_true]
  split
  · next heq =>
    rw [decide_eq_true_iff, UInt32.lt_iff_toNat_lt, heq]
    omega
  · next hne =>
    rw [← UInt32.toNat_inj] at hne
    rw [decide_eq_true_iff, UInt32.lt_iff_toNat_lt]
    omega

theorem pair_le_trans (a b c : DocumentPair) (hab : a.le b = true) (hbc : b.le c = true) :
    a.le c = true := by
  rw [pair_le_iff] at hab hbc ⊢
  omega

theorem pair_le_total (a b : DocumentPair) : (a.le b || b.le a) = true := by
  rw [Bool.or_eq_true, pair_le_iff, pair_le_iff]
  omega

theorem pair_le_antisymm (a b : DocumentPair) (hab : a.le b = true) (hba : b.le a = true) :
    a = b := by
  rw [pair_le_iff] at hab hba
  obtain ⟨a, a'⟩ := a
  obtain ⟨b, b'⟩ := b
  rw [DocumentPair.mk.injEq, ← UInt32.toNat_inj, ← UInt32.toNat_inj]
  dsimp only at hab hba
  omega

theorem ascendingPairs_congr {as bs : List DocumentPair} (h : ∀ pair, pair ∈ as ↔ pair ∈ bs) :
    ascendingPairs as = ascendingPairs bs :=
  Order.ascending_congr pair_le_trans pair_le_total pair_le_antisymm h

/-! ## Sizes of buckets -/

/-- The sizes of the buckets of a table, key by key. -/
theorem map_length_toList (table : BandTable) :
    (table.toList.map fun bucket => bucket.2.length)
      = table.keys.map fun key => (table.bucket key).length := by
  rw [← Std.HashMap.map_fst_toList_eq_keys, List.map_map]
  refine List.map_congr_left fun entry hentry => ?_
  rw [Function.comp_apply, bucket, Std.HashMap.getD_eq_getD_getElem?,
    Std.HashMap.mem_toList_iff_getElem?_eq_some.mp hentry, Option.getD_some]

/-- In a proper table the keys are those with documents in their buckets. -/
theorem mem_keys_iff {table : BandTable} (h : table.Proper) {key : UInt64} :
    key ∈ table.keys ↔ table.bucket key ≠ [] := by
  rw [Std.HashMap.mem_keys, bucket, Std.HashMap.getD_eq_getD_getElem?,
    ← Std.HashMap.isSome_getElem?_iff_mem]
  have hproper := h key
  rcases hfound : table[key]? with - | ids
  · simp
  · rw [hfound] at hproper
    simpa using hproper

/-- **Tables with the same members have buckets of the same sizes.** -/
theorem perm_lengths {table table' : BandTable} (h : table.Proper) (h' : table'.Proper)
    (hperm : ∀ key, (table.bucket key).Perm (table'.bucket key)) :
    (table.toList.map fun bucket => bucket.2.length).Perm
      (table'.toList.map fun bucket => bucket.2.length) := by
  rw [map_length_toList, map_length_toList]
  have hkeys : table.keys.Perm table'.keys := by
    refine (List.perm_ext_iff_of_nodup Std.HashMap.nodup_keys Std.HashMap.nodup_keys).mpr
      fun key => ?_
    rw [mem_keys_iff h, mem_keys_iff h']
    exact not_congr ⟨fun hnil => (hnil ▸ hperm key).nil_eq.symm,
      fun hnil => (hnil ▸ hperm key).eq_nil⟩
  have hlengths : (table.keys.map fun key => (table.bucket key).length)
      = table.keys.map fun key => (table'.bucket key).length :=
    List.map_congr_left fun key _ => (hperm key).length_eq
  rw [hlengths]
  exact hkeys.map _

theorem flatMap_perm {α β : Type} {f : α → List β} {l l' : List α}
    (h : List.Forall₂ (fun a b => (f a).Perm (f b)) l l') : (l.flatMap f).Perm (l'.flatMap f) := by
  induction h with
  | nil => exact List.Perm.refl _
  | cons hhead _ ih => exact hhead.append ih

/-! ## Agreement -/

/-- **Two indexes agree** if they give the same answer to every question. -/
structure Agrees (i j : Index) : Prop where
  size : i.size = j.size
  query : ∀ signature, i.query signature = j.query signature
  queryProbing : ∀ signature probes, i.queryProbing signature probes
    = j.queryProbing signature probes
  queryScored : ∀ signature threshold, i.queryScored signature threshold
    = j.queryScored signature threshold
  candidatePairs : i.candidatePairs = j.candidatePairs
  candidatePairsUnder : ∀ gate schedule, i.candidatePairsUnder gate schedule
    = j.candidatePairsUnder gate schedule
  statistics : i.statistics = j.statistics

section Agreement

variable {i j : Index} (hi : Sound i) (hj : Sound j) (hsplit : i.split = j.split)
  (hstored : ∀ id, i.signature? id = j.signature? id)

include hi hj hsplit hstored

theorem query_congr (signature : Signature) : i.query signature = j.query signature := by
  have hmates : ascendingIds (i.bucketMates signature.slots)
      = ascendingIds (j.bucketMates signature.slots) := by
    refine ascendingIds_congr fun id => ?_
    rw [mem_bucketMates_iff hi, mem_bucketMates_iff hj, hsplit, hstored]
  rw [query, query, accepts, accepts, hsplit, hmates]

theorem queryProbing_congr (signature : Signature) (probes : Nat) :
    i.queryProbing signature probes = j.queryProbing signature probes := by
  have hquery : i.query = j.query := funext (query_congr hi hj hsplit hstored)
  have hnudged : ∀ band, i.nudged signature band = j.nudged signature band := fun band => by
    rw [nudged, nudged, nudge, nudge, nudge, nudge, hsplit]
  rw [queryProbing, queryProbing, accepts, accepts, hsplit, hquery]
  simp only [hnudged]

theorem queryScored_congr (signature : Signature) (threshold : Float) :
    i.queryScored signature threshold = j.queryScored signature threshold := by
  rw [queryScored, queryScored, query_congr hi hj hsplit hstored]
  simp only [hstored]

omit hi hj hsplit in
theorem size_congr : i.size = j.size :=
  (Std.HashMap.Equiv.of_forall_getElem?_eq hstored).size_eq

theorem mem_bandPairs_congr {band : Nat} (hband : band < j.split.bands) (pair : DocumentPair) :
    pair ∈ i.bandPairs band ↔ pair ∈ j.bandPairs band := by
  rw [mem_bandPairs_iff hi (hsplit ▸ hband), mem_bandPairs_iff hj hband, hsplit]
  simp only [hstored]

theorem candidatePairs_congr : i.candidatePairs = j.candidatePairs := by
  refine ascendingPairs_congr fun pair => ?_
  rw [List.mem_flatMap, List.mem_flatMap, hsplit]
  refine exists_congr fun band => and_congr_right fun hband => ?_
  exact mem_bandPairs_congr hi hj hsplit hstored (List.mem_range.mp hband) pair

theorem candidatePairsUnder_congr (gate : Gate) (schedule : Schedule) :
    i.candidatePairsUnder gate schedule = j.candidatePairsUnder gate schedule := by
  have hspread : i.candidatePairsSpread (schedule.bands i.split.bands)
      = j.candidatePairsSpread (schedule.bands j.split.bands) := by
    refine ascendingPairs_congr fun pair => ?_
    rw [Workload.mem_gather_iff, Workload.mem_gather_iff, hsplit]
    refine exists_congr fun band => and_congr_right fun hband => ?_
    exact mem_bandPairs_congr hi hj hsplit hstored hband pair
  rw [candidatePairsUnder, candidatePairsUnder, size_congr hstored, hspread,
    candidatePairs_congr hi hj hsplit hstored]

theorem perm_bucketSizes : i.bucketSizes.Perm j.bucketSizes := by
  refine flatMap_perm (List.forall₂_iff_get.mpr ⟨?_, fun band hband hband' => ?_⟩)
  · rw [Vector.length_toList, Vector.length_toList, hsplit]
  · rw [Vector.length_toList] at hband hband'
    have htable : i.tables[band]? = some i.tables[band] := Vector.getElem?_eq_getElem hband
    have htable' : j.tables[band]? = some j.tables[band] := Vector.getElem?_eq_getElem hband'
    refine perm_lengths (hi.files.proper htable) (hj.files.proper htable') fun key => ?_
    refine List.perm_iff_count.mpr fun id => ?_
    have howner : (i.signature? id).any (isFiledAt i.split band key)
        = (j.signature? id).any (isFiledAt j.split band key) := by rw [hsplit, hstored]
    have hcount := hi.files.count htable key id
    rw [howner] at hcount
    exact hcount.trans (hj.files.count htable' key id).symm

theorem statistics_congr : i.statistics = j.statistics := by
  have hperm := perm_bucketSizes hi hj hsplit hstored
  have hsum := hperm.foldl_eq' (f := (· + ·)) (fun x _ y _ z => Nat.add_right_comm z x y) 0
  have hmax := hperm.foldl_eq' (f := Nat.max) (fun x _ y _ z => Nat.max_right_comm z x y) 0
  rw [statistics, statistics, size_congr hstored, hsplit, hperm.length_eq, hsum, hmax]

/-- **Sound indexes that store the same signatures agree.** -/
theorem agrees_of_sound : Agrees i j where
  size := size_congr hstored
  query := query_congr hi hj hsplit hstored
  queryProbing := queryProbing_congr hi hj hsplit hstored
  queryScored := queryScored_congr hi hj hsplit hstored
  candidatePairs := candidatePairs_congr hi hj hsplit hstored
  candidatePairsUnder := candidatePairsUnder_congr hi hj hsplit hstored
  statistics := statistics_congr hi hj hsplit hstored

end Agreement

end CodeClones.Index
