import CodeClones.Proofs.Index.History

/-!
# Proofs/Index/Numbered — signatures inserted under consecutive numbers

`wordsFrom first count` is a stretch of consecutive words; up to `2 ^ 32` words it repeats none.
`Index.insertFrom` inserts signatures under such a stretch of numbers, one after the other: each
that is long enough is stored under its own number (`signature?_insertFrom_at`), and no other number
is touched (`signature?_insertFrom_of_notMem`).  A signature under a new number is counted
(`size_insert_of_new`), and its slots lead back to the number (`mem_query_insert`).
-/

namespace CodeClones

/-! ## Consecutive words -/

/-- The `count` words from `first` on; past the last word they start at zero again. -/
def wordsFrom (first : UInt32) (count : Nat) : List UInt32 :=
  (List.range count).map fun k => first + .ofNat k

variable {first word : UInt32} {count : Nat}

@[simp] theorem wordsFrom_zero : wordsFrom first 0 = [] := rfl

theorem mem_wordsFrom : word ∈ wordsFrom first count ↔ ∃ k < count, word = first + .ofNat k := by
  rw [wordsFrom, List.mem_map]
  simp only [List.mem_range, eq_comm]

theorem wordsFrom_add (first : UInt32) (a b : Nat) :
    wordsFrom first (a + b) = wordsFrom first a ++ wordsFrom (first + .ofNat a) b := by
  rw [wordsFrom, List.range_add, List.map_append, List.map_map]
  refine congrArg (wordsFrom first a ++ ·) (List.map_congr_left fun k _ => ?_)
  exact (congrArg (first + ·) (UInt32.ofNat_add a k)).trans (UInt32.add_assoc _ _ _).symm

theorem wordsFrom_succ (first : UInt32) (count : Nat) :
    wordsFrom first (count + 1) = first :: wordsFrom (first + 1) count := by
  rw [Nat.add_comm, wordsFrom_add]
  exact congrArg (· :: _) (UInt32.add_zero first)

/-- **Up to `2 ^ 32` words the stretch repeats none.** -/
theorem nodup_wordsFrom (h : count ≤ 2 ^ 32) : (wordsFrom first count).Nodup := by
  refine List.Nodup.map_on (fun a ha b hb heq => ?_) List.nodup_range
  rw [List.mem_range] at ha hb
  have hword := congrArg UInt32.toNat ((UInt32.add_right_inj first).mp heq)
  rwa [UInt32.toNat_ofNat_of_lt' (ha.trans_le h), UInt32.toNat_ofNat_of_lt' (hb.trans_le h)]
    at hword

/-- **Short of the largest word the stretch ascends.** -/
theorem pairwise_wordsFrom (h : first.toNat + count ≤ 2 ^ 32) :
    (wordsFrom first count).Pairwise (· < ·) := by
  have hread : ∀ k < count, (first + .ofNat k).toNat = first.toNat + k := fun k hk => by
    rw [UInt32.toNat_add, UInt32.toNat_ofNat']
    omega
  refine List.pairwise_map.mpr (List.pairwise_lt_range.imp_of_mem fun {a b} ha hb hab => ?_)
  rw [UInt32.lt_iff_toNat_lt, hread a (List.mem_range.mp ha), hread b (List.mem_range.mp hb)]
  omega

theorem mem_wordsFrom_zero (h : count < 2 ^ 32) :
    word ∈ wordsFrom 0 count ↔ word < .ofNat count := by
  rw [mem_wordsFrom, UInt32.lt_iff_toNat_lt, UInt32.toNat_ofNat_of_lt' h]
  constructor
  · rintro ⟨k, hk, rfl⟩
    rw [UInt32.zero_add, UInt32.toNat_ofNat_of_lt' (hk.trans h)]
    exact hk
  · intro hlt
    exact ⟨word.toNat, hlt, by rw [UInt32.ofNat_toNat, UInt32.zero_add]⟩

/-- The word after a stretch is not in it. -/
theorem notMem_wordsFrom (h : count < 2 ^ 32) : first + .ofNat count ∉ wordsFrom first count := by
  have hall : (wordsFrom first (count + 1)).Nodup := nodup_wordsFrom h
  rw [wordsFrom_add] at hall
  refine fun hmem => List.disjoint_of_nodup_append hall hmem ?_
  exact mem_wordsFrom.mpr ⟨0, Nat.one_pos, (UInt32.add_zero _).symm⟩

/-- Two neighbouring stretches have no word in common. -/
theorem disjoint_wordsFrom {rest : Nat} (h : count + rest ≤ 2 ^ 32) :
    (wordsFrom 0 count).Disjoint (wordsFrom (.ofNat count) rest) := by
  have hall : (wordsFrom 0 (count + rest)).Nodup := nodup_wordsFrom h
  rw [wordsFrom_add, UInt32.zero_add] at hall
  exact List.disjoint_of_nodup_append hall

namespace Index

/-! ## Inserting under consecutive numbers -/

/-- **Insert signatures** under the consecutive numbers from `first` on. -/
def insertFrom (index : Index) (first : DocumentId) : List (Array UInt64) → Index
  | [] => index
  | slots :: rest => (index.insert ⟨first, slots⟩).insertFrom (first + 1) rest

variable {index : Index} {id : DocumentId} {signatures : List (Array UInt64)}

theorem Sound.insertFrom (h : Sound index) (first : DocumentId)
    (signatures : List (Array UInt64)) : Sound (index.insertFrom first signatures) := by
  induction signatures generalizing index first with
  | nil => exact h
  | cons slots rest ih => exact ih (h.insert ⟨first, slots⟩) (first + 1)

/-- **No other number is touched.** -/
theorem signature?_insertFrom_of_notMem (h : id ∉ wordsFrom first signatures.length) :
    (index.insertFrom first signatures).signature? id = index.signature? id := by
  induction signatures generalizing index first with
  | nil => rfl
  | cons slots rest ih =>
    rw [List.length_cons, wordsFrom_succ, List.mem_cons, not_or] at h
    rw [insertFrom, ih h.2, signature?_insert, if_neg fun hid => h.1 hid.2]

/-- **A signature that is long enough is stored under its number**; one that is too short leaves
there what was there. -/
theorem signature?_insertFrom_at (index : Index) (first : DocumentId)
    {signatures : List (Array UInt64)} {k : Nat} {slots : Array UInt64}
    (hlength : signatures.length ≤ 2 ^ 32) (hk : signatures[k]? = some slots) :
    (index.insertFrom first signatures).signature? (first + .ofNat k)
      = if index.split.required ≤ slots.size then some ⟨first + .ofNat k, slots⟩
        else index.signature? (first + .ofNat k) := by
  induction signatures generalizing index first k with
  | nil => exact absurd hk nofun
  | cons head rest ih =>
    have hfirst : first ∉ wordsFrom (first + 1) rest.length := by
      have hall : (wordsFrom first (rest.length + 1)).Nodup := nodup_wordsFrom hlength
      rw [wordsFrom_succ] at hall
      exact (List.nodup_cons.mp hall).1
    cases k with
    | zero =>
      obtain rfl := Option.some.inj hk
      have hid : first + UInt32.ofNat 0 = first := UInt32.add_zero first
      rw [hid, insertFrom, signature?_insertFrom_of_notMem hfirst, signature?_insert]
      simp only [and_true]
      rfl
    | succ k =>
      have hid : first + UInt32.ofNat (k + 1) = first + 1 + .ofNat k := by
        rw [Nat.add_comm, UInt32.ofNat_add, ← UInt32.add_assoc]
        rfl
      have hne : first + 1 + UInt32.ofNat k ≠ first := fun heq => by
        refine hfirst (mem_wordsFrom.mpr ⟨k, ?_, heq.symm⟩)
        exact Nat.lt_of_succ_lt_succ (List.getElem?_eq_some_iff.mp hk).1
      rw [hid, insertFrom, ih _ _ (Nat.le_of_succ_le hlength) hk, split_insert, signature?_insert,
        if_neg (c := _ ∧ _) fun h => hne h.2]

/-- Only numbers of the stretch are new. -/
theorem mem_wordsFrom_of_signature? {signature : Signature}
    (h : (index.insertFrom first signatures).signature? id = some signature) :
    (∃ old, index.signature? id = some old) ∨ id ∈ wordsFrom first signatures.length := by
  by_cases hid : id ∈ wordsFrom first signatures.length
  · exact .inr hid
  · exact .inl ⟨signature, (signature?_insertFrom_of_notMem hid).symm.trans h⟩

/-! ## A signature that is new -/

/-- **A new signature is counted.** -/
theorem size_insert_of_new (signature : Signature)
    (hlong : index.split.required ≤ signature.size) (hnew : index.signature? signature.id = none) :
    (index.insert signature).size = index.size + 1 := by
  have habsent : signature.id ∉ index.signatures := fun hmem => by
    rw [signature?, getElem?_pos index.signatures signature.id hmem] at hnew
    exact Option.some_ne_none _ hnew
  rw [insert, if_pos (accepts_iff.mpr hlong), hnew]
  change (index.signatures.insert signature.id signature).size = _
  rw [Std.HashMap.size_insert, if_neg habsent]
  rfl

/-- **A signature that is too short** leaves the index as it is. -/
theorem insert_of_short (signature : Signature) (hshort : signature.size < index.split.required) :
    index.insert signature = index := by
  rw [insert, if_neg (not_accepts_iff.mpr hshort)]

/-- **The slots of an inserted signature** lead back to its number. -/
theorem mem_query_insert {slots : Array UInt64} {other : DocumentId} (h : Sound index)
    (hlong : index.split.required ≤ slots.size) (hne : id ≠ other) :
    id ∈ (index.insert ⟨id, slots⟩).query ⟨other, slots⟩ := by
  rw [mem_query_iff (h.insert _) (by rwa [split_insert]), split_insert]
  refine ⟨hne, 0, index.split.bands_pos, ⟨id, slots⟩, ?_, rfl⟩
  rw [signature?_insert, if_pos ⟨hlong, rfl⟩]

theorem query_of_short (signature : Signature) (hshort : signature.size < index.split.required) :
    index.query signature = [] := by
  rw [query, if_neg (not_accepts_iff.mpr hshort)]

end Index

end CodeClones
