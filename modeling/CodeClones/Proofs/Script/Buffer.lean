import CodeClones.Proofs.Script.Batch
import CodeClones.Proofs.Sketch.Bytes

/-!
# Proofs/Script/Buffer — signatures cross the boundary bit for bit

A script gets a signature as a buffer and hands it back as one.  `Receives` says what the four calls
that take a signature do with it: they pass exactly its slots to the index, under the next number of
the handle or under the number of lookups.  A value that is read as slots is received with these
(`receives_of_slots?`), and what was written from a signature is read as its own slots
(`buffers_carry_signatures`).
-/

namespace CodeClones.Script

open Log

variable {session : Session} {handle : Handle} {index : Index} {next : DocumentId}
  {value : Value} {slots : Array UInt64}

/-! ## Reading -/

/-- **Slots are read back** from their bytes. -/
theorem readSlots_encode (slots : Array UInt64) :
    readSlots (SlotBytes.encode slots.toList) = .ok slots :=
  readSlots_eq_ok_iff.mpr (SlotBytes.decode?_encode slots.toList)

/-- **Bytes are written back** from their slots. -/
theorem encode_of_readSlots {bytes : List UInt8} (h : readSlots bytes = .ok slots) :
    SlotBytes.encode slots.toList = bytes :=
  SlotBytes.encode_of_decode?_eq_some (readSlots_eq_ok_iff.mp h)

theorem exists_readSlots_iff (bytes : List UInt8) :
    (∃ slots, readSlots bytes = .ok slots) ↔ 8 ∣ bytes.length := by
  rw [← SlotBytes.isSome_decode?_iff, Option.isSome_iff_exists]
  exact ⟨fun ⟨slots, h⟩ => ⟨slots.toList, readSlots_eq_ok_iff.mp h⟩,
    fun ⟨slots, h⟩ => ⟨slots.toArray, readSlots_eq_ok_iff.mpr h⟩⟩

/-! ## What the calls do with a signature -/

/-- **A signature behind other signatures** of a list is one of the leading ones. -/
theorem getElem?_leadingSlots {values : List Value} {k : Nat} (hvalue : values[k]? = some value)
    (hslots : value.slots? = some slots) (hbefore : ∀ other ∈ values.take k, other.IsSignature) :
    (leadingSlots values)[k]? = some slots := by
  induction values generalizing k with
  | nil => exact absurd hvalue nofun
  | cons first values ih =>
    cases k with
    | zero =>
      obtain rfl := Option.some.inj hvalue
      rw [leadingSlots_cons_of_some hslots]
      rfl
    | succ k =>
      obtain ⟨hfirst, hothers⟩ := List.forall_mem_cons.mp hbefore
      obtain ⟨_, hsome⟩ := Option.isSome_iff_exists.mp (Value.isSignature_iff.mp hfirst)
      rw [leadingSlots_cons_of_some hsome]
      exact ih hvalue hothers

/-- What a script is told of candidates with their similarity. -/
def scoredValue (found : List (DocumentId × Float)) : Value :=
  .list (found.map fun (id, similarity) =>
    .record [("id", .ofWord id), ("similarity", .number similarity)])

/-- **How a session takes a signature** that is passed for an index.

An addition inserts its slots under the next number and answers that; in a list it has to stand
behind signatures only, and its number is as far from the next one as it is from the head of the
list.  A slot for every row of every band has it stored.  The two lookups ask for its slots. -/
structure Session.Receives (session : Session) (handle : Handle) (index : Index)
    (next : DocumentId) (value : Value) (slots : Array UInt64) : Prop where
  add : ∀ {arguments : Arguments}, (arguments.get 0).handle? = some handle →
    arguments.get 1 = value →
      let outcome := (session.call .add arguments).value
      outcome.answer = .ok (.ofWord next)
        ∧ outcome.session.indexes[handle]? = some (index.insert ⟨next, slots⟩)
  addBatch : ∀ {arguments : Arguments} {values : List Value} {k : Nat},
    (arguments.get 0).handle? = some handle → arguments.get 1 = .list values →
      values[k]? = some value → (∀ other ∈ values.take k, other.IsSignature) →
        let after := index.insertFrom next (leadingSlots values)
        (leadingSlots values)[k]? = some slots
          ∧ (session.call .addBatch arguments).value.session.indexes[handle]? = some after
          ∧ (values.length ≤ 2 ^ 32 → index.split.required ≤ slots.size →
            after.signature? (next + .ofNat k) = some ⟨next + .ofNat k, slots⟩)
  query : ∀ {arguments : Arguments} {threshold : Float},
    (arguments.get 0).handle? = some handle → arguments.get 1 = value →
      arguments.get 2 = .number threshold →
        (session.call .query arguments).value.answer
          = .ok (scoredValue (index.queryScored ⟨Session.lookupId, slots⟩ threshold))
  candidates : ∀ {arguments : Arguments} {probes : Nat},
    (arguments.get 0).handle? = some handle → arguments.get 1 = value →
      Session.readProbes (arguments.get 2) = .ok probes →
        (session.call .candidates arguments).value.answer
          = .ok (.list ((if 0 < probes then index.queryProbing ⟨Session.lookupId, slots⟩ probes
              else index.query ⟨Session.lookupId, slots⟩).map .ofWord))

section Received

variable {arguments : Arguments} (hkeeps : session.Keeps handle index next)
  (hslots : value.slots? = some slots) (hhandle : (arguments.get 0).handle? = some handle)
include hkeeps hslots hhandle

theorem call_add_of_slots? (hvalue : arguments.get 1 = value) :
    (session.call .add arguments).value.answer = .ok (.ofWord next)
      ∧ (session.call .add arguments).value.session.indexes[handle]?
        = some (index.insert ⟨next, slots⟩) := by
  have hcount : 2 ≤ arguments.count := by
    by_contra hlt
    rw [← hvalue, get_of_count_le (Nat.le_of_not_lt hlt)] at hslots
    exact absurd hslots nofun
  obtain ⟨hadds, hanswer⟩ := addSignature_spec hkeeps value .signatureNotBuffer
  rw [leadingSlots_cons_of_some hslots] at hadds
  rw [hslots, Option.isSome_some, if_pos rfl] at hanswer
  rw [call_add_eq hkeeps arguments hcount hhandle, hvalue]
  exact ⟨hanswer, (hadds.keeps hkeeps).indexes⟩

theorem call_query_of_slots? {threshold : Float} (hvalue : arguments.get 1 = value)
    (hthreshold : arguments.get 2 = .number threshold) :
    (session.call .query arguments).value.answer
      = .ok (scoredValue (index.queryScored ⟨Session.lookupId, slots⟩ threshold)) := by
  have hcount : ¬arguments.count < 3 := fun hlt => by
    rw [get_of_count_le (Nat.le_of_lt_succ hlt)] at hthreshold
    exact absurd hthreshold nofun
  obtain ⟨bytes, hbytes, hread⟩ := slots?_eq_some_iff.mp hslots
  change session.query arguments = _
  rw [Session.query, if_neg hcount, find_eq_ok_iff.mpr ⟨hhandle, hkeeps.indexes⟩, hvalue, hbytes,
    hthreshold]
  change (readSlots bytes >>= _) = _
  rw [hread]
  rfl

end Received

/-- **What is read as slots is received as these.** -/
theorem receives_of_slots? (hkeeps : session.Keeps handle index next)
    (hslots : value.slots? = some slots) : session.Receives handle index next value slots where
  add := call_add_of_slots? hkeeps hslots
  addBatch {arguments values k} hhandle hvalues hvalue hbefore := by
    obtain ⟨hadds, -⟩ := addBatch_spec hkeeps arguments hhandle hvalues
    have hk := getElem?_leadingSlots hvalue hslots hbefore
    refine ⟨hk, (hadds.keeps hkeeps).indexes, fun hlength hlong => ?_⟩
    rw [Index.signature?_insertFrom_at index next
      ((length_leadingSlots_le values).trans hlength) hk, if_pos hlong]
  query hhandle := call_query_of_slots? hkeeps hslots hhandle
  candidates := candidates_of_slots? hkeeps.indexes hslots

/-! ## Out and in again -/

/-- **What a signature is handed out as.** -/
theorem exists_of_minhashSignature {arguments : Arguments}
    (h : minhashSignature arguments = .ok value) :
    ∃ items options, arguments.get 0 = .list items
      ∧ readSketchArgument (arguments.get 1) = .ok options
      ∧ value = .buffer (SlotBytes.encode
        ((sketcherOf options).sketch (shingleHashes options items) 0).slots.toList) := by
  rw [minhashSignature] at h
  cases hitems : arguments.get 0 with
  | list items =>
    rw [hitems] at h
    cases hoptions : readSketchArgument (arguments.get 1) with
    | error error =>
      rw [hoptions] at h
      exact absurd h nofun
    | ok options =>
      rw [hoptions] at h
      exact ⟨items, options, rfl, rfl, (Except.ok.inj h).symm⟩
  | _ =>
    rw [hitems] at h
    exact absurd h nofun

/-- **Signatures cross the boundary bit for bit.**

Slots are written as eight bytes each, the lowest first.  What is written is read back as the same
slots; a buffer is read exactly if its length is a multiple of eight, and then its bytes are written
back.  So the buffer that a script gets for a signature is received with the slots of the signature,
after any calls and under every live handle. -/
theorem buffers_carry_signatures :
    (∀ (slots : List UInt64) (k : Nat) (slot : UInt64), slots[k]? = some slot →
      ∀ place < 8, ((SlotBytes.encode slots)[8 * k + place]?).map UInt8.toNat
        = some (slot.toNat / 2 ^ (8 * place) % 2 ^ 8))
      ∧ (∀ slots : Array UInt64, readSlots (SlotBytes.encode slots.toList) = .ok slots)
      ∧ (∀ bytes, ((∃ slots, readSlots bytes = .ok slots) ↔ 8 ∣ bytes.length)
        ∧ ∀ slots, readSlots bytes = .ok slots → SlotBytes.encode slots.toList = bytes)
      ∧ ∀ (arguments : Arguments) (value : Value), minhashSignature arguments = .ok value →
        ∃ items options, arguments.get 0 = .list items
          ∧ readSketchArgument (arguments.get 1) = .ok options
          ∧ ∀ (ambient : Ambient) (history : List Call) (handle : Handle) (index : Index),
            ((Session.start ambient).after history).indexes[handle]? = some index →
              ∃ next, ((Session.start ambient).after history).nextIds[handle]? = some next
                ∧ ((Session.start ambient).after history).Receives handle index next value
                  ((sketcherOf options).sketch (shingleHashes options items) 0).slots := by
  refine ⟨fun slots k slot hslot place hplace => ?_, readSlots_encode,
    fun bytes => ⟨exists_readSlots_iff bytes, fun slots => encode_of_readSlots⟩,
    fun arguments value hvalue => ?_⟩
  · rw [SlotBytes.getElem?_encode hslot hplace, Option.map_some, SlotBytes.toNat_byteAt _ hplace]
  · obtain ⟨items, options, hitems, hoptions, rfl⟩ := exists_of_minhashSignature hvalue
    refine ⟨items, options, hitems, hoptions, fun ambient history handle index hindex => ?_⟩
    obtain ⟨_, next, hkeeps⟩ := (paired_after ambient history).exists_keeps
      (mem_table_iff.mpr ⟨index, hindex⟩)
    obtain rfl := Option.some.inj (hindex.symm.trans hkeeps.indexes)
    exact ⟨next, hkeeps.nextIds, receives_of_slots? hkeeps
      (slots?_eq_some_iff.mpr ⟨_, rfl, readSlots_encode _⟩)⟩

/-- The signature of five texts, added to an index of one band with one row.  The bytes of its first
slot differ, so they show their order. -/
theorem buffers_carry_signatures_of_five_texts :
    let session := (Session.start ⟨1, .info⟩).after oneByOne
    let texts : List Value := [.text "a", .text "b", .text "c", .text "d", .text "e"]
    let slots := ((sketcherOf {}).sketch (shingleHashes {} texts) 0).slots
    let bytes := SlotBytes.encode slots.toList
    session.indexes[(1 : Handle)]? = some (Index.empty (.ofCounts 1 1))
      ∧ minhashSignature ⟨[.list texts]⟩ = .ok (.buffer bytes)
      ∧ slots.toList[0]? = some 4107653458
      ∧ (∀ place < 8, (bytes[place]?).map UInt8.toNat = [82, 209, 213, 244, 0, 0, 0, 0][place]?)
      ∧ readSlots bytes = .ok slots
      ∧ (¬∃ slots, readSlots (bytes.take 7) = .ok slots)
      ∧ (session.call .add ⟨[.ofWord 1, .buffer bytes]⟩).value.answer = .ok (.ofWord 0)
      ∧ (session.call .add ⟨[.ofWord 1, .buffer bytes]⟩).value.session.indexes[(1 : Handle)]?
        = some ((Index.empty (.ofCounts 1 1)).insert ⟨0, slots⟩) := by
  intro session texts slots bytes
  have hkeeps := keeps_oneByOne ⟨1, .info⟩
  obtain ⟨hplaces, hback, haccepted, hcarried⟩ := buffers_carry_signatures
  have hhashes : shingleHashes {} texts = [14455638074719011133] := by decide +kernel
  have hslot : slots.toList[0]? = some 4107653458 := by
    change ((sketcherOf {}).sketch (shingleHashes {} texts) 0).slots.toList[0]? = _
    rw [hhashes]
    decide +kernel
  have hbytes : ∀ place < 8,
      (bytes[place]?).map UInt8.toNat = [82, 209, 213, 244, 0, 0, 0, 0][place]? := by
    intro place hplace
    have hdigit := hplaces slots.toList 0 _ hslot place hplace
    rw [Nat.mul_zero, Nat.zero_add] at hdigit
    rw [hdigit]
    interval_cases place <;> rfl
  obtain ⟨items, options, hitems, hoptions, hreceived⟩ := hcarried ⟨[.list texts]⟩ _ rfl
  obtain rfl : texts = items := Value.list.inj hitems
  obtain rfl : {} = options := Except.ok.inj hoptions
  obtain ⟨next, hnext, hreceives⟩ := hreceived ⟨1, .info⟩ oneByOne 1 _ hkeeps.indexes
  obtain rfl := Option.some.inj (hkeeps.nextIds.symm.trans hnext)
  have hseven : ¬∃ slots, readSlots (bytes.take 7) = .ok slots := by
    have hlong : 7 < bytes.length := by
      by_contra hle
      have hlast := hbytes 7 (by decide)
      rw [List.getElem?_eq_none (Nat.le_of_not_lt hle)] at hlast
      exact absurd hlast nofun
    rw [(haccepted _).1, List.length_take_of_le hlong.le]
    decide
  exact ⟨hkeeps.indexes, rfl, hslot, hbytes, hback slots, hseven,
    hreceives.add (Value.handle?_ofWord 1) rfl⟩

end CodeClones.Script
