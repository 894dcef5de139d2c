import CodeClones.Proofs.Decimal.Double
import CodeClones.Proofs.Index.Numbered
import CodeClones.Proofs.Sketch.Bytes
import CodeClones.Script.Call

/-!
# Proofs/Script/Addition — what adding signatures does to a session

`AgreeOff handle` says that two sessions differ under one handle at most.  Adding values under a
handle inserts the leading signatures among them under consecutive numbers and moves the handle's
counter past them (`Adds`); what comes after the first value that is no signature is not looked at
(`addEach_spec`).  `addSignature_spec` is the single step.
-/

namespace CodeClones.Script

open Log

/-! ## Signatures among the values -/

namespace Value

/-- A word as a value. -/
def ofWord (word : UInt32) : Value :=
  ofNat word.toNat

/-- **A script can hand a word back.** -/
@[simp] theorem handle?_ofWord (handle : Handle) : (ofWord handle).handle? = some handle :=
  congrArg some (Exact.unsigned32_ofNat handle)

theorem ofWord_injective : Function.Injective ofWord := fun a b h => by
  have hhandle := congrArg handle? h
  rwa [handle?_ofWord, handle?_ofWord, Option.some.injEq] at hhandle

/-- The slots of a value that is a signature. -/
def slots? (value : Value) : Option (Array UInt64) :=
  value.rawBytes?.bind fun bytes => (SlotBytes.decode? bytes).map List.toArray

/-- **A signature** is a buffer whose length is a multiple of eight. -/
def IsSignature (value : Value) : Prop :=
  ∃ bytes, value.rawBytes? = some bytes ∧ 8 ∣ bytes.length

theorem isSignature_iff {value : Value} : value.IsSignature ↔ value.slots?.isSome := by
  rw [IsSignature, slots?]
  cases value.rawBytes? with
  | none => exact ⟨fun ⟨_, h, _⟩ => absurd h nofun, fun h => absurd h Bool.false_ne_true⟩
  | some bytes =>
    rw [Option.bind_some, Option.isSome_map, SlotBytes.isSome_decode?_iff]
    exact ⟨fun ⟨_, h, hdvd⟩ => Option.some.inj h ▸ hdvd, fun hdvd => ⟨bytes, rfl, hdvd⟩⟩

/-- Why a value is refused that is no signature. -/
def refusal (notBuffer : CallError) (value : Value) : CallError :=
  if value.rawBytes?.isSome then .signatureLength else notBuffer

end Value

/-- The bytes of a buffer are read as slots exactly if none is left over. -/
theorem readSlots_eq_ok_iff {bytes : List UInt8} {slots : Array UInt64} :
    readSlots bytes = .ok slots ↔ SlotBytes.decode? bytes = some slots.toList := by
  rw [readSlots]
  cases SlotBytes.decode? bytes with
  | none => exact iff_of_false (by simp) (by simp)
  | some found => rw [Option.some.injEq, Except.ok.injEq, ← Array.toList_inj]

/-- A value has slots exactly if its bytes are read as these. -/
theorem slots?_eq_some_iff {value : Value} {slots : Array UInt64} : value.slots? = some slots
    ↔ ∃ bytes, value.rawBytes? = some bytes ∧ readSlots bytes = .ok slots := by
  simp only [Value.slots?, Option.bind_eq_some_iff, Option.map_eq_some_iff, readSlots_eq_ok_iff]
  refine exists_congr fun bytes => and_congr_right fun _ => ⟨?_, fun h => ⟨_, h, rfl⟩⟩
  rintro ⟨_, h, rfl⟩
  exact h

/-- The slots of the signatures before the first value that is none. -/
def leadingSlots : List Value → List (Array UInt64)
  | [] => []
  | value :: values =>
    match value.slots? with
    | some slots => slots :: leadingSlots values
    | none => []

theorem leadingSlots_cons_of_some {value : Value} {slots : Array UInt64} {values : List Value}
    (h : value.slots? = some slots) :
    leadingSlots (value :: values) = slots :: leadingSlots values := by
  rw [leadingSlots, h]

theorem leadingSlots_cons_of_none {value : Value} {values : List Value}
    (h : value.slots? = none) : leadingSlots (value :: values) = [] := by
  rw [leadingSlots, h]

/-- The first value that is no signature. -/
def firstRefused (values : List Value) : Option Value :=
  values.find? fun value => value.slots?.isNone

theorem firstRefused_eq_none_iff {values : List Value} :
    firstRefused values = none ↔ ∀ value ∈ values, value.IsSignature := by
  rw [firstRefused, List.find?_eq_none]
  refine forall₂_congr fun value _ => ?_
  rw [Value.isSignature_iff, Option.isNone_iff_eq_none, ← Ne, Option.isSome_iff_ne_none]

theorem length_leadingSlots_le (values : List Value) :
    (leadingSlots values).length ≤ values.length := by
  induction values with
  | nil => exact Nat.le_refl 0
  | cons value values ih =>
    cases hslots : value.slots? with
    | none =>
      rw [leadingSlots_cons_of_none hslots]
      exact Nat.zero_le _
    | some slots =>
      rw [leadingSlots_cons_of_some hslots]
      exact Nat.succ_le_succ ih

/-- **Signatures alone** lead as a whole. -/
theorem length_leadingSlots {values : List Value} (h : ∀ value ∈ values, value.IsSignature) :
    (leadingSlots values).length = values.length := by
  induction values with
  | nil => rfl
  | cons value values ih =>
    obtain ⟨hvalue, hvalues⟩ := List.forall_mem_cons.mp h
    obtain ⟨slots, hslots⟩ := Option.isSome_iff_exists.mp (Value.isSignature_iff.mp hvalue)
    rw [leadingSlots_cons_of_some hslots, List.length_cons, ih hvalues, List.length_cons]

/-! ## Sessions that differ under one handle -/

/-- A handle is in a table exactly if something stands under it. -/
theorem mem_table_iff {β : Type} {table : Std.HashMap Handle β} {handle : Handle} :
    handle ∈ table ↔ ∃ b, table[handle]? = some b := by
  rw [Std.HashMap.mem_iff_isSome_getElem?, Option.isSome_iff_exists]

theorem mem_table_congr {β : Type} {s t : Std.HashMap Handle β} {handle : Handle}
    (h : s[handle]? = t[handle]?) : handle ∈ s ↔ handle ∈ t := by
  rw [mem_table_iff, mem_table_iff, h]

/-- **Two sessions agree** but for what they keep under one handle. -/
structure AgreeOff (handle : Handle) (s t : Session) : Prop where
  ambient : s.ambient = t.ambient
  nextHandle : s.nextHandle = t.nextHandle
  indexes : ∀ other, other ≠ handle → s.indexes[other]? = t.indexes[other]?
  nextIds : ∀ other, other ≠ handle → s.nextIds[other]? = t.nextIds[other]?

namespace AgreeOff

variable {handle : Handle} {s t u : Session}

theorem refl (handle : Handle) (s : Session) : AgreeOff handle s s :=
  ⟨rfl, rfl, fun _ _ => rfl, fun _ _ => rfl⟩

theorem symm (h : AgreeOff handle s t) : AgreeOff handle t s :=
  ⟨h.ambient.symm, h.nextHandle.symm, fun other hne => (h.indexes other hne).symm,
    fun other hne => (h.nextIds other hne).symm⟩

theorem trans (h : AgreeOff handle s t) (h' : AgreeOff handle t u) : AgreeOff handle s u :=
  ⟨h.ambient.trans h'.ambient, h.nextHandle.trans h'.nextHandle,
    fun other hne => (h.indexes other hne).trans (h'.indexes other hne),
    fun other hne => (h.nextIds other hne).trans (h'.nextIds other hne)⟩

/-- What is kept under the handle is of no account. -/
theorem hold (s : Session) (handle : Handle) (index : Index) (next : DocumentId) :
    AgreeOff handle s (s.hold handle index next) where
  ambient := rfl
  nextHandle := rfl
  indexes other hne := by
    rw [Session.hold, Std.HashMap.getElem?_insert, if_neg (by simpa using hne.symm)]
  nextIds other hne := by
    rw [Session.hold, Std.HashMap.getElem?_insert, if_neg (by simpa using hne.symm)]

theorem startCount (s : Session) (handle : Handle) : AgreeOff handle s (s.startCount handle) where
  ambient := rfl
  nextHandle := rfl
  indexes _ _ := rfl
  nextIds other hne := by
    rw [Session.startCount, Std.HashMap.getElem?_insertIfNew, if_neg fun h =>
      hne (beq_iff_eq.mp h.1).symm]

end AgreeOff

/-- **What a session keeps under a handle** — an index and the number of its next signature. -/
structure Session.Keeps (session : Session) (handle : Handle) (index : Index) (next : DocumentId) :
    Prop where
  indexes : session.indexes[handle]? = some index
  nextIds : session.nextIds[handle]? = some next

namespace Session.Keeps

variable {session : Session} {handle : Handle} {index : Index} {next : DocumentId}

theorem nextId (h : session.Keeps handle index next) : session.nextId handle = next := by
  rw [Session.nextId, Std.HashMap.getD_eq_getD_getElem?, h.nextIds, Option.getD_some]

theorem hold (session : Session) (handle : Handle) (index : Index) (next : DocumentId) :
    (session.hold handle index next).Keeps handle index next :=
  ⟨Std.HashMap.getElem?_insert_self, Std.HashMap.getElem?_insert_self⟩

/-- A count that runs is not started again. -/
theorem startCount (h : session.Keeps handle index next) :
    (session.startCount handle).Keeps handle index next where
  indexes := h.indexes
  nextIds := by
    have hmem : handle ∈ session.nextIds := mem_table_iff.mpr ⟨next, h.nextIds⟩
    rw [Session.startCount, Std.HashMap.getElem?_insertIfNew, if_neg fun hnew => hnew.2 hmem,
      h.nextIds]

end Session.Keeps

/-! ## Adding -/

/-- **What adding signatures under a handle does** — they are inserted under consecutive numbers,
the counter moves past them, and nothing else changes. -/
structure Adds (handle : Handle) (signatures : List (Array UInt64)) (s t : Session) : Prop where
  elsewhere : AgreeOff handle s t
  keeps : ∀ {index next}, s.Keeps handle index next →
    t.Keeps handle (index.insertFrom next signatures) (next + .ofNat signatures.length)

namespace Adds

variable {handle : Handle} {s t u : Session}

/-- **The handles stay the same** in both tables. -/
theorem mem_iff {signatures : List (Array UInt64)} {index : Index} {next : DocumentId}
    (h : Adds handle signatures s t) (hkeeps : s.Keeps handle index next) (other : Handle) :
    (other ∈ t.indexes ↔ other ∈ s.indexes) ∧ (other ∈ t.nextIds ↔ other ∈ s.nextIds) := by
  by_cases heq : other = handle
  · obtain ⟨hindexes, hnextIds⟩ := h.keeps hkeeps
    rw [heq]
    exact ⟨iff_of_true (mem_table_iff.mpr ⟨_, hindexes⟩) (mem_table_iff.mpr ⟨_, hkeeps.indexes⟩),
      iff_of_true (mem_table_iff.mpr ⟨_, hnextIds⟩) (mem_table_iff.mpr ⟨_, hkeeps.nextIds⟩)⟩
  · exact ⟨mem_table_congr (h.elsewhere.indexes other heq).symm,
      mem_table_congr (h.elsewhere.nextIds other heq).symm⟩

/-- To add nothing. -/
theorem nil (h : AgreeOff handle s t)
    (hkeeps : ∀ {index next}, s.Keeps handle index next → t.Keeps handle index next) :
    Adds handle [] s t where
  elsewhere := h
  keeps {index next} hs := by
    rw [List.length_nil]
    exact (UInt32.add_zero next).symm ▸ hkeeps hs

theorem cons {slots : Array UInt64} {rest : List (Array UInt64)} (h : Adds handle [slots] s t)
    (h' : Adds handle rest t u) : Adds handle (slots :: rest) s u where
  elsewhere := h.elsewhere.trans h'.elsewhere
  keeps {index next} hs := by
    have hnext : next + UInt32.ofNat (slots :: rest).length = next + 1 + .ofNat rest.length := by
      rw [List.length_cons, Nat.add_comm, UInt32.ofNat_add, ← UInt32.add_assoc]
      rfl
    rw [hnext]
    exact h'.keeps (h.keeps hs)

end Adds

variable {session : Session} {handle : Handle} {index : Index} {next : DocumentId}

/-- **Adding one value** — a signature is inserted under the next number, which is the answer;
anything else is refused. -/
theorem addSignature_spec (h : session.Keeps handle index next) (value : Value)
    (notBuffer : CallError) :
    Adds handle (leadingSlots [value]) session
        (session.addSignature handle value notBuffer).value.session
      ∧ (session.addSignature handle value notBuffer).value.answer
        = if value.slots?.isSome then .ok (.ofWord next) else .error (value.refusal notBuffer) := by
  have hinsert : ∀ signature, (index.insertLogged signature).value = index.insert signature :=
    fun signature => by
      rw [Index.insertLogged, Index.insert]
      split <;> rfl
  rw [Session.addSignature, h.indexes]
  rcases hbytes : value.rawBytes? with - | bytes
  · have hnone : value.slots? = none := by rw [Value.slots?, hbytes, Option.bind_none]
    rw [leadingSlots_cons_of_none hnone, hnone, Value.refusal, hbytes]
    exact ⟨.nil (.refl handle session) id, rfl⟩
  · have hslots : value.slots? = (SlotBytes.decode? bytes).map List.toArray := by
      rw [Value.slots?, hbytes, Option.bind_some]
    dsimp only
    rw [readSlots]
    rcases hdecode : SlotBytes.decode? bytes with - | slots
    · have hnone : value.slots? = none := by rw [hslots, hdecode, Option.map_none]
      rw [leadingSlots_cons_of_none hnone, hnone, Value.refusal, hbytes]
      exact ⟨.nil (.startCount session handle) Session.Keeps.startCount, rfl⟩
    · have hsome : value.slots? = some slots.toArray := by rw [hslots, hdecode, Option.map_some]
      rw [leadingSlots_cons_of_some hsome, hsome]
      dsimp only
      rw [Logged.value_bind, hinsert, h.nextId]
      refine ⟨⟨.hold session handle _ _, fun {index' next'} h' => ?_⟩, rfl⟩
      obtain rfl := Option.some.inj (h.indexes.symm.trans h'.indexes)
      obtain rfl := Option.some.inj (h.nextIds.symm.trans h'.nextIds)
      exact .hold session handle _ _

/-- **Adding several values** — the leading signatures are inserted; their numbers are the answer if
no value is refused. -/
theorem addEach_spec (h : session.Keeps handle index next) (numbers values : List Value) :
    Adds handle (leadingSlots values) session (session.addEach handle numbers values).value.session
      ∧ (session.addEach handle numbers values).value.answer
        = match firstRefused values with
          | none => .ok (.list (numbers.reverse ++ (wordsFrom next values.length).map .ofWord))
          | some value => .error (value.refusal .signaturesNotBuffers) := by
  induction values generalizing session index next numbers with
  | nil =>
    rw [Session.addEach, leadingSlots]
    exact ⟨.nil (.refl handle session) id, by simp [firstRefused, Session.unchanged]⟩
  | cons value values ih =>
    obtain ⟨hadds, hanswer⟩ := addSignature_spec h value .signaturesNotBuffers
    rw [Session.addEach, Logged.value_bind]
    rcases hslots : value.slots? with - | slots
    · rw [hslots, Option.isSome_none, if_neg Bool.false_ne_true] at hanswer
      rw [leadingSlots_cons_of_none hslots] at hadds
      rw [leadingSlots_cons_of_none hslots, hanswer, firstRefused,
        List.find?_cons_of_pos (by rw [hslots]; rfl)]
      exact ⟨hadds, hanswer⟩
    · rw [hslots, Option.isSome_some, if_pos rfl] at hanswer
      rw [leadingSlots_cons_of_some hslots, leadingSlots] at hadds
      rw [leadingSlots_cons_of_some hslots, hanswer, firstRefused,
        List.find?_cons_of_neg (by rw [hslots]; exact Bool.false_ne_true)]
      obtain ⟨hrest, hrest_answer⟩ := ih (hadds.keeps h) (.ofWord next :: numbers)
      refine ⟨hadds.cons hrest, hrest_answer.trans ?_⟩
      rw [firstRefused]
      cases values.find? fun value => value.slots?.isNone with
      | none =>
        dsimp only
        rw [List.reverse_cons, List.append_assoc, show (value :: values).length
          = values.length + 1 from rfl, wordsFrom_succ, List.map_cons]
        rfl
      | some refused => rfl

end CodeClones.Script
