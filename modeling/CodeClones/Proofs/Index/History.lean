import CodeClones.Proofs.Index.Agreement

/-!
# Proofs/Index/History — an index does not remember how it came about

An index is filled and emptied by a history of operations.  `standing` says which signature of each
document is the last accepted one; the index stores exactly those and stays sound (`follows_run`),
so it agrees with a fresh index that got nothing else (`sound_and_agrees_of_history`).
-/

namespace CodeClones.Index

open Log

/-! ## Operations -/

inductive Operation where
  | insert (signature : Signature)
  | insertAll (signatures : List Signature)
  | clear

/-- What an operation does to an index. -/
def Operation.apply (index : Index) : Operation → Index
  | insert signature => index.insert signature
  | insertAll signatures => (index.insertAll signatures).value
  | clear => index.clear

/-- **The index after a history**, starting from the empty one. -/
def run (split : Split) (history : List Operation) : Index :=
  history.foldl Operation.apply (empty split)

/-- The last accepted signature of each document, after one more signature. -/
def accept (split : Split) (standing : DocumentId → Option Signature) (signature : Signature) :
    DocumentId → Option Signature := fun id =>
  if split.required ≤ signature.size ∧ id = signature.id then some signature else standing id

/-- The last accepted signature of each document, after one more operation. -/
def Operation.update (split : Split) (standing : DocumentId → Option Signature) :
    Operation → DocumentId → Option Signature
  | insert signature => accept split standing signature
  | insertAll signatures => signatures.foldl (accept split) standing
  | clear => fun _ => none

/-- **The last accepted signature of each document** since the index was last cleared. -/
def standing (split : Split) (history : List Operation) : DocumentId → Option Signature :=
  history.foldl (Operation.update split) fun _ => none

/-! ## One operation -/

theorem value_insertLogged (index : Index) (signature : Signature) :
    (index.insertLogged signature).value = index.insert signature := by
  rw [insertLogged, insert]
  split <;> rfl

theorem value_insertAll (index : Index) (signatures : List Signature) :
    (index.insertAll signatures).value = signatures.foldl insert index := by
  induction signatures generalizing index with
  | nil => rfl
  | cons signature signatures ih =>
    rw [insertAll, List.foldlM_cons, Logged.value_bind, ← insertAll, ih, value_insertLogged,
      List.foldl_cons]

/-- **What a state of the index and the standing signatures have to do with each other.** -/
structure Follows (split : Split) (standing : DocumentId → Option Signature) (index : Index) :
    Prop where
  split_eq : index.split = split
  sound : Sound index
  stored : index.signature? = standing

theorem follows_empty (split : Split) : Follows split (fun _ => none) (empty split) :=
  ⟨rfl, sound_empty split, funext (signature?_empty split)⟩

variable {split : Split} {standing : DocumentId → Option Signature} {index : Index}

theorem Follows.insert (h : Follows split standing index) (signature : Signature) :
    Follows split (accept split standing signature) (index.insert signature) where
  split_eq := (split_insert index signature).trans h.split_eq
  sound := h.sound.insert signature
  stored := funext fun id => by rw [signature?_insert, h.split_eq, h.stored, accept]

theorem Follows.foldl_insert (h : Follows split standing index) (signatures : List Signature) :
    Follows split (signatures.foldl (accept split) standing)
      (signatures.foldl Index.insert index) := by
  induction signatures generalizing standing index with
  | nil => exact h
  | cons signature signatures ih => exact ih (h.insert signature)

/-- **One operation.** -/
theorem Follows.apply (h : Follows split standing index) (operation : Operation) :
    Follows split (operation.update split standing) (operation.apply index) := by
  cases operation with
  | insert signature => exact h.insert signature
  | insertAll signatures =>
    rw [Operation.apply, value_insertAll]
    exact h.foldl_insert signatures
  | clear =>
    rw [Operation.apply, clear, h.split_eq]
    exact follows_empty split

/-- **A whole history.** -/
theorem follows_run (split : Split) (history : List Operation) :
    Follows split (Index.standing split history) (run split history) := by
  have hfold : ∀ {standing index}, Follows split standing index →
      Follows split (history.foldl (Operation.update split) standing)
        (history.foldl Operation.apply index) := by
    induction history with
    | nil => exact fun h => h
    | cons operation history ih => exact fun h => ih (h.apply operation)
  exact hfold (follows_empty split)

/-! ## Forgetting the history -/

/-- Accepting some standing signatures in any order. -/
theorem foldl_accept_eq (standing : DocumentId → Option Signature)
    {target : DocumentId → Option Signature} {kept : List Signature}
    (hkept : ∀ signature ∈ kept, target signature.id = some signature
      ∧ split.required ≤ signature.size) (id : DocumentId) :
    kept.foldl (accept split) standing id
      = if ∃ signature ∈ kept, signature.id = id then target id else standing id := by
  induction kept generalizing standing with
  | nil => simp
  | cons signature kept ih =>
    obtain ⟨htarget, hlong⟩ := hkept signature List.mem_cons_self
    rw [List.foldl_cons,
      ih _ fun other hother => hkept other (List.mem_cons_of_mem signature hother), accept]
    by_cases hrest : ∃ other ∈ kept, other.id = id
    · obtain ⟨other, hother, heq⟩ := hrest
      rw [if_pos ⟨other, hother, heq⟩, if_pos ⟨other, List.mem_cons_of_mem _ hother, heq⟩]
    · rw [if_neg hrest]
      by_cases hid : id = signature.id
      · rw [if_pos ⟨hlong, hid⟩, if_pos ⟨signature, List.mem_cons_self, hid.symm⟩, hid, htarget]
      · rw [if_neg fun h => hid h.2, if_neg]
        rintro ⟨other, hother, heq⟩
        rcases List.mem_cons.mp hother with rfl | hother
        · exact hid heq.symm
        · exact hrest ⟨other, hother, heq⟩

/-- **A fresh index with the standing signatures**, inserted in any order, agrees. -/
theorem agrees_of_standing {history : List Operation} {kept : List Signature}
    (hkept : ∀ signature, signature ∈ kept
      ↔ Index.standing split history signature.id = some signature) :
    Agrees (run split history) (run split (kept.map Operation.insert)) := by
  have hrun := follows_run split history
  have hfresh := follows_run split (kept.map Operation.insert)
  refine agrees_of_sound hrun.sound hfresh.sound (hrun.split_eq.trans hfresh.split_eq.symm)
    fun id => ?_
  have hlong : ∀ signature ∈ kept, Index.standing split history signature.id = some signature
      ∧ split.required ≤ signature.size := fun signature hsignature => by
    have hstanding := (hkept signature).mp hsignature
    refine ⟨hstanding, ?_⟩
    rw [← hrun.split_eq]
    exact hrun.sound.long (hrun.stored.symm ▸ hstanding)
  have hfold := foldl_accept_eq (fun _ => none) hlong id
  have hfresh_standing : Index.standing split (kept.map Operation.insert) id
      = kept.foldl (accept split) (fun _ => none) id := by
    rw [Index.standing, List.foldl_map]
    rfl
  rw [hrun.stored, hfresh.stored, hfresh_standing, hfold]
  split
  · rfl
  · next hnone =>
    rcases hid : Index.standing split history id with - | signature
    · rfl
    · obtain rfl := hrun.sound.own (hrun.stored.symm ▸ hid)
      exact absurd ⟨signature, (hkept signature).mpr hid, rfl⟩ hnone

/-- **The standing signatures are finitely many**: those that the index stores. -/
theorem exists_standing_list (split : Split) (history : List Operation) :
    ∃ kept : List Signature, ∀ signature, signature ∈ kept
      ↔ Index.standing split history signature.id = some signature := by
  have hrun := follows_run split history
  refine ⟨(run split history).signatures.toList.map Prod.snd, fun signature => ?_⟩
  rw [← hrun.stored, List.mem_map]
  constructor
  · rintro ⟨⟨id, signature⟩, hmem, rfl⟩
    have hstored : (run split history).signature? id = some signature :=
      Std.HashMap.mem_toList_iff_getElem?_eq_some.mp hmem
    exact (hrun.sound.own hstored).symm ▸ hstored
  · exact fun hstored =>
      ⟨(signature.id, signature), Std.HashMap.mem_toList_iff_getElem?_eq_some.mpr hstored, rfl⟩

/-- **History independence** — after any history the index has the split it was made with and stores
the last accepted signature of each document since the last clear, and nothing else.  Every number
stands once in the bucket of its stored signature in each band and nowhere else, no bucket is empty,
and every stored signature is long enough and under its own number.  A fresh index that gets the
last accepted signatures, in any order, gives the same answers. -/
theorem sound_and_agrees_of_history (bands rows : Nat) (history : List Operation) :
    let split := Split.ofCounts bands rows
    let index := run split history
    index.split = split ∧ Sound index
      ∧ (∀ id, index.signature? id = Index.standing split history id)
      ∧ (∃ kept : List Signature, ∀ signature, signature ∈ kept
        ↔ Index.standing split history signature.id = some signature)
      ∧ ∀ kept : List Signature,
        (∀ signature, signature ∈ kept
          ↔ Index.standing split history signature.id = some signature) →
        Agrees index (run split (kept.map Operation.insert)) := by
  intro split index
  have hrun := follows_run split history
  exact ⟨hrun.split_eq, hrun.sound, congrFun hrun.stored, exists_standing_list split history,
    fun _ hkept => agrees_of_standing hkept⟩

/-- A replaced signature and one that is too short leave no trace: both documents stand under their
long signatures, and each is the answer to the other's. -/
theorem agrees_after_replacement :
    let history : List Operation :=
      [.insert ⟨3, #[5]⟩, .insertAll [⟨4, #[6]⟩, ⟨3, #[6]⟩], .insert ⟨4, #[]⟩]
    let index := run (Split.ofCounts 1 1) history
    index.signature? 3 = some ⟨3, #[6]⟩ ∧ index.signature? 4 = some ⟨4, #[6]⟩
      ∧ 4 ∈ index.query ⟨3, #[6]⟩
      ∧ 4 ∈ (run (Split.ofCounts 1 1) [.insert ⟨4, #[6]⟩, .insert ⟨3, #[6]⟩]).query ⟨3, #[6]⟩
      ∧ Agrees index (run (Split.ofCounts 1 1) [.insert ⟨4, #[6]⟩, .insert ⟨3, #[6]⟩]) := by
  intro history index
  have hstanding : ∀ id, Index.standing (Split.ofCounts 1 1) history id
      = if id = 3 then some ⟨3, #[6]⟩ else if id = 4 then some ⟨4, #[6]⟩ else none := by
    intro id
    simp only [history, Index.standing, List.foldl_cons, List.foldl_nil, Operation.update, accept,
      Split.required, Split.ofCounts, Order.atLeastOne, Signature.size]
    by_cases h3 : id = 3 <;> by_cases h4 : id = 4 <;> simp [h3, h4]
  obtain ⟨hsplit, hsound, hstored, -, hagrees⟩ := sound_and_agrees_of_history 1 1 history
  have hfirst : index.signature? 3 = some ⟨3, #[6]⟩ := (hstored 3).trans (hstanding 3)
  have hsecond : index.signature? 4 = some ⟨4, #[6]⟩ := (hstored 4).trans (hstanding 4)
  have hagree : Agrees index
      (run (Split.ofCounts 1 1) [.insert ⟨4, #[6]⟩, .insert ⟨3, #[6]⟩]) := by
    refine hagrees [⟨4, #[6]⟩, ⟨3, #[6]⟩] fun signature => ?_
    rw [hstanding]
    constructor
    · intro hmem
      rcases List.mem_cons.mp hmem with rfl | hmem
      · rfl
      · rw [List.mem_singleton.mp hmem]
        rfl
    · intro heq
      split at heq
      · rw [← Option.some.inj heq]
        exact List.mem_cons_of_mem _ List.mem_cons_self
      · split at heq
        · rw [← Option.some.inj heq]
          exact List.mem_cons_self
        · cases heq
  have hquery : 4 ∈ index.query ⟨3, #[6]⟩ := by
    refine (mem_query_iff hsound ?_).mpr ⟨by decide, 0, ?_, _, hsecond, rfl⟩
    · rw [hsplit]
      decide
    · rw [hsplit]
      decide
  exact ⟨hfirst, hsecond, hquery, hagree.query _ ▸ hquery, hagree⟩

end CodeClones.Index
