import CodeClones.Index.Basic
import Mathlib

/-!
# Proofs/Index/Basic — every stored signature is filed once in each band

`Files` says whom the buckets of an index belong to: a number occurs once in the bucket of each of
its owner's hashes, nowhere else, and no bucket is empty.  Taking a signature out of the buckets
removes its owner (`Files.unfile`), putting one in adds it (`Files.file`).  An index is `Sound` if
its buckets belong to the signatures it stores, each accepted and under its own number.
-/

namespace CodeClones

/-! ## One bucket -/

namespace BandTable

variable {table : BandTable} {hash key : UInt64} {id other : DocumentId}

/-- The bucket of a hash; a missing one is empty. -/
def bucket (table : BandTable) (key : UInt64) : List DocumentId :=
  table.getD key []

theorem bucket_add : (table.add hash id).bucket key
    = if hash = key then table.bucket key ++ [id] else table.bucket key := by
  rw [bucket, add, Std.HashMap.getD_insert]
  by_cases heq : hash = key
  · subst heq
    rw [if_pos (beq_self_eq_true hash), if_pos rfl, bucket]
  · rw [if_neg (by rwa [beq_iff_eq]), if_neg heq, bucket]

theorem bucket_remove : (table.remove hash id).bucket key
    = if hash = key then (table.bucket key).filter (fun other => other != id)
      else table.bucket key := by
  rw [remove]
  rcases hfound : table[hash]? with - | ids
  · dsimp only
    by_cases heq : hash = key
    · subst heq
      rw [if_pos rfl, bucket, Std.HashMap.getD_eq_getD_getElem?, hfound, Option.getD_none,
        List.filter_nil]
    · rw [if_neg heq]
  · have hbucket : table.bucket hash = ids := by
      rw [bucket, Std.HashMap.getD_eq_getD_getElem?, hfound, Option.getD_some]
    dsimp only
    by_cases heq : hash = key
    · subst heq
      rw [if_pos rfl, hbucket]
      split
      · next hempty =>
        rw [bucket, Std.HashMap.getD_erase_self, List.isEmpty_iff.mp hempty]
      · rw [bucket, Std.HashMap.getD_insert_self]
    · rw [if_neg heq]
      split
      · rw [bucket, Std.HashMap.getD_erase, if_neg (by rwa [beq_iff_eq]), bucket]
      · rw [bucket, Std.HashMap.getD_insert, if_neg (by rwa [beq_iff_eq]), bucket]

/-- **No stored bucket is empty.** -/
def Proper (table : BandTable) : Prop :=
  ∀ key : UInt64, table[key]? ≠ some []

theorem proper_empty : Proper ∅ := fun key => by
  rw [Std.HashMap.getElem?_empty]
  exact nofun

theorem Proper.add (h : table.Proper) : (table.add hash id).Proper := by
  intro key
  rw [BandTable.add, Std.HashMap.getElem?_insert]
  split
  · simp
  · exact h key

theorem Proper.remove (h : table.Proper) : (table.remove hash id).Proper := by
  intro key
  rw [BandTable.remove]
  split
  · exact h key
  · dsimp only
    split
    · rw [Std.HashMap.getElem?_erase]
      split
      · exact nofun
      · exact h key
    · next hleft =>
      rw [Std.HashMap.getElem?_insert]
      split
      · exact fun hnil => hleft (List.isEmpty_iff.mpr (Option.some.inj hnil))
      · exact h key

end BandTable

namespace Index

open BandTable

/-! ## Whom the buckets belong to -/

/-- Does a signature have this hash in a band? -/
def isFiledAt (split : Split) (band : Nat) (hash : UInt64) (signature : Signature) : Bool :=
  Signature.bandHash split signature.slots band == hash

/-- **Whom the buckets belong to** — every owner's number once in the bucket of its hash in each
band, no other number anywhere, and no empty bucket. -/
structure Files (index : Index) (owner : DocumentId → Option Signature) : Prop where
  count : ∀ {band : Nat} {table : BandTable}, index.tables[band]? = some table →
    ∀ hash id, (table.bucket hash).count id
      = if (owner id).any (isFiledAt index.split band hash) then 1 else 0
  proper : ∀ {band : Nat} {table : BandTable}, index.tables[band]? = some table → table.Proper

theorem table_empty {split : Split} {band : Nat} {table : BandTable}
    (h : (empty split).tables[band]? = some table) : table = ∅ := by
  obtain ⟨hband, rfl⟩ := Vector.getElem?_eq_some_iff.mp h
  exact Vector.getElem_replicate _

theorem files_empty (split : Split) : Files (empty split) fun _ => none where
  count {band table} h hash id := by
    rw [table_empty h, bucket, Std.HashMap.getD_empty]
    rfl
  proper {band table} h := by
    rw [table_empty h]
    exact proper_empty

theorem exists_table_of_unfile {index : Index} {signature : Signature} {band : Nat}
    {table : BandTable} (h : (index.unfile signature).tables[band]? = some table) :
    ∃ before, index.tables[band]? = some before ∧ table
      = before.remove (Signature.bandHash index.split signature.slots band) signature.id := by
  obtain ⟨hband, rfl⟩ := Vector.getElem?_eq_some_iff.mp h
  exact ⟨_, Vector.getElem?_eq_getElem hband, Vector.getElem_mapFinIdx _⟩

theorem exists_table_of_file {index : Index} {signature : Signature} {band : Nat}
    {table : BandTable} (h : (index.file signature).tables[band]? = some table) :
    ∃ before, index.tables[band]? = some before ∧ table
      = before.add (Signature.bandHash index.split signature.slots band) signature.id := by
  obtain ⟨hband, rfl⟩ := Vector.getElem?_eq_some_iff.mp h
  exact ⟨_, Vector.getElem?_eq_getElem hband, Vector.getElem_mapFinIdx _⟩

/-- **Taking a signature out of its buckets.** -/
theorem Files.unfile {index : Index} {owner : DocumentId → Option Signature} {old : Signature}
    (h : Files index owner) (hold : owner old.id = some old) :
    Files (index.unfile old) fun id => if id = old.id then none else owner id where
  count {band table} htable hash id := by
    obtain ⟨before, hbefore, rfl⟩ := exists_table_of_unfile htable
    have hcount := h.count hbefore hash id
    rw [bucket_remove]
    by_cases hid : id = old.id
    · subst hid
      rw [hold] at hcount
      rw [if_pos rfl, Option.any_none, if_neg Bool.false_ne_true]
      split
      · exact List.count_eq_zero_of_not_mem fun hmem => by
          simpa using (List.mem_filter.mp hmem).2
      · next hne =>
        rw [hcount, Option.any_some, if_neg]
        rw [isFiledAt, beq_iff_eq]
        exact hne
    · rw [if_neg hid]
      split
      · rw [List.count_filter (by simpa using hid)]
        exact hcount
      · exact hcount
  proper {band table} htable := by
    obtain ⟨before, hbefore, rfl⟩ := exists_table_of_unfile htable
    exact (h.proper hbefore).remove

/-- **Putting a signature into its buckets.** -/
theorem Files.file {index : Index} {owner : DocumentId → Option Signature} {signature : Signature}
    (h : Files index owner) (hnew : owner signature.id = none) :
    Files (index.file signature) fun id =>
      if id = signature.id then some signature else owner id where
  count {band table} htable hash id := by
    obtain ⟨before, hbefore, rfl⟩ := exists_table_of_file htable
    have hcount := h.count hbefore hash id
    rw [bucket_add]
    by_cases hid : id = signature.id
    · subst hid
      rw [hnew, Option.any_none, if_neg Bool.false_ne_true] at hcount
      rw [if_pos rfl, Option.any_some, isFiledAt]
      split
      · next heq =>
        rw [List.count_append, hcount, List.count_singleton_self]
        exact (if_pos (beq_iff_eq.mpr heq)).symm
      · next hne =>
        rw [hcount]
        exact (if_neg (by rwa [beq_iff_eq])).symm
    · rw [if_neg hid]
      split
      · rw [List.count_append, List.count_singleton, if_neg (c := (signature.id == id) = true)
          (by simpa using Ne.symm hid), Nat.add_zero]
        exact hcount
      · exact hcount
  proper {band table} htable := by
    obtain ⟨before, hbefore, rfl⟩ := exists_table_of_file htable
    exact (h.proper hbefore).add

theorem Files.store {index : Index} {owner : DocumentId → Option Signature}
    (h : Files index owner) (signature : Signature) : Files (index.store signature) owner :=
  ⟨h.count, h.proper⟩

/-! ## Sound indexes -/

/-- **The buckets belong to the stored signatures**, and those are long enough and stand under their
own numbers. -/
structure Sound (index : Index) : Prop where
  files : Files index index.signature?
  own : ∀ {id : DocumentId} {signature : Signature}, index.signature? id = some signature →
    signature.id = id
  long : ∀ {id : DocumentId} {signature : Signature}, index.signature? id = some signature →
    index.split.required ≤ signature.size

theorem signature?_empty (split : Split) (id : DocumentId) : (empty split).signature? id = none :=
  Std.HashMap.getElem?_empty

theorem sound_empty (split : Split) : Sound (empty split) where
  files := by
    have hnone : (empty split).signature? = fun _ => none := funext (signature?_empty split)
    rw [hnone]
    exact files_empty split
  own h := by
    rw [signature?_empty] at h
    exact absurd h nofun
  long h := by
    rw [signature?_empty] at h
    exact absurd h nofun

theorem accepts_iff {index : Index} {signature : Signature} :
    index.accepts signature = true ↔ index.split.required ≤ signature.size :=
  decide_eq_true_iff

theorem not_accepts_iff {index : Index} {signature : Signature} :
    ¬ index.accepts signature = true ↔ signature.size < index.split.required :=
  accepts_iff.not.trans Nat.not_le

theorem split_insert (index : Index) (signature : Signature) :
    (index.insert signature).split = index.split := by
  rw [insert]
  split
  · split <;> rfl
  · rfl

/-- **The last accepted signature counts.** -/
theorem signature?_insert (index : Index) (signature : Signature) (id : DocumentId) :
    (index.insert signature).signature? id
      = if index.split.required ≤ signature.size ∧ id = signature.id then some signature
        else index.signature? id := by
  have hstore : (index.store signature).signature? id
      = if id = signature.id then some signature else index.signature? id := by
    rw [signature?, store, Std.HashMap.getElem?_insert]
    by_cases heq : id = signature.id
    · rw [if_pos heq, if_pos (beq_iff_eq.mpr heq.symm)]
    · rw [if_neg heq, if_neg (by rw [beq_iff_eq]; exact Ne.symm heq)]
      rfl
  rw [insert, accepts]
  by_cases haccept : index.split.required ≤ signature.size
  · rw [if_pos (decide_eq_true haccept)]
    simp only [haccept, true_and]
    rw [← hstore]
    split <;> rfl
  · rw [if_neg (by rwa [decide_eq_true_eq]), if_neg fun h => haccept h.1]

/-- **Inserting keeps an index sound.** -/
theorem Sound.insert {index : Index} (h : Sound index) (signature : Signature) :
    Sound (index.insert signature) where
  files := by
    have hsignatures : (index.insert signature).signature? = fun id =>
        if index.split.required ≤ signature.size ∧ id = signature.id then some signature
        else index.signature? id := funext (signature?_insert index signature)
    rw [hsignatures, Index.insert, accepts]
    by_cases haccept : index.split.required ≤ signature.size
    · rw [if_pos (decide_eq_true haccept)]
      simp only [haccept, true_and]
      rcases hold : index.signature? signature.id with - | old
      · exact (h.files.store signature).file hold
      · have hid := h.own hold
        have hfiles := ((h.files.unfile (hid ▸ hold)).store signature).file (if_pos hid.symm)
        refine (congrArg (Files _) (funext fun id => ?_)).mp hfiles
        rw [hid]
        split <;> rfl
    · rw [if_neg (by rwa [decide_eq_true_eq])]
      simp only [haccept, false_and, if_false]
      exact h.files
  own {id stored} hstored := by
    rw [signature?_insert] at hstored
    split at hstored
    · next heq => rw [← Option.some.inj hstored, heq.2]
    · exact h.own hstored
  long {id stored} hstored := by
    rw [split_insert]
    rw [signature?_insert] at hstored
    split at hstored
    · next heq => rw [← Option.some.inj hstored]; exact heq.1
    · exact h.long hstored

end Index

end CodeClones
