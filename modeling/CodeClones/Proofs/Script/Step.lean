import CodeClones.Proofs.Script.Addition

/-!
# Proofs/Script/Step — what one call does to the indexes of a session

A call creates an index, gives one up, adds signatures under a handle or leaves both tables as they
are; `Effect` lists the four, and `effect` says that there is no other.  A call that names a handle
under which nothing is kept is refused (`outcome_of_unknown`), and whatever is kept under a handle
is of no account for the calls that do not name it (`AgreeOff.outcome`).
-/

namespace CodeClones.Script

open Log

/-- The first argument of these functions is a handle. -/
def Operation.takesHandle : Operation → Bool
  | add | addBatch | destroy | candidatePairs | candidates | statistics | query => true
  | _ => false

/-- The items of a list. -/
def Value.items : Value → List Value
  | list items => items
  | _ => []

/-- A function with its arguments. -/
structure Call where
  operation : Operation
  arguments : Arguments

namespace Call

/-- What a call leads to. -/
def outcome (call : Call) (session : Session) : Outcome :=
  (session.call call.operation call.arguments).value

/-- **The handle that a call names.** -/
def handle? (call : Call) : Option Handle :=
  if call.operation.takesHandle then (call.arguments.get 0).handle? else none

/-- The signatures that a call has to add. -/
def offered (call : Call) : List (Array UInt64) :=
  match call.operation, call.arguments.get 1 with
  | .add, value => leadingSlots [value]
  | .addBatch, .list values => leadingSlots values
  | _, _ => []

/-- The handles that a call answers. -/
def handlesGiven (call : Call) (answer : Except CallError Value) : List Value :=
  match call.operation with
  | .createIndex => answer.toOption.toList
  | _ => []

/-- The numbers of signatures that a call answers. -/
def numbersGiven (call : Call) (answer : Except CallError Value) : List Value :=
  match call.operation with
  | .add => answer.toOption.toList
  | .addBatch => answer.toOption.toList.flatMap Value.items
  | _ => []

/-- Does a call give up the index under a handle? -/
def GivesUp (call : Call) (handle : Handle) : Prop :=
  call.operation = .destroy ∧ call.handle? = some handle

end Call

/-- **Both tables have the same handles.** -/
def Session.Paired (session : Session) : Prop :=
  ∀ handle, handle ∈ session.indexes ↔ handle ∈ session.nextIds

/-- The signatures that a call adds under a handle. -/
def Session.added (session : Session) (call : Call) (handle : Handle) : List (Array UInt64) :=
  if call.handle? = some handle ∧ handle ∈ session.indexes then call.offered else []

variable {session s t : Session} {call : Call} {handle : Handle} {value : Value}

theorem Session.Paired.exists_keeps (h : session.Paired) (hmem : handle ∈ session.indexes) :
    ∃ index next, session.Keeps handle index next := by
  obtain ⟨index, hindex⟩ := mem_table_iff.mp hmem
  obtain ⟨next, hnext⟩ := mem_table_iff.mp ((h handle).mp hmem)
  exact ⟨index, next, hindex, hnext⟩

theorem Session.Keeps.mem_indexes {index : Index} {next : DocumentId}
    (h : session.Keeps handle index next) : handle ∈ session.indexes :=
  mem_table_iff.mpr ⟨index, h.indexes⟩

/-- A call that names a handle adds what it has to add under that handle alone. -/
theorem added_eq (hhandle : call.handle? = some handle) (hmem : handle ∈ session.indexes)
    (other : Handle) :
    session.added call other = if other = handle then call.offered else [] := by
  rw [Session.added, hhandle]
  by_cases heq : other = handle
  · rw [heq, if_pos ⟨rfl, hmem⟩, if_pos rfl]
  · rw [if_neg fun h => heq (Option.some.inj h.1).symm, if_neg heq]

/-! ## The four things that a call can do -/

/-- A call that answers no handle and no number, adds nothing and gives up nothing. -/
structure Idle (session : Session) (call : Call) (answer : Except CallError Value) : Prop where
  handles : call.handlesGiven answer = []
  numbers : call.numbersGiven answer = []
  added : ∀ handle, session.added call handle = []
  keeps : ∀ handle, ¬call.GivesUp handle

/-- **What a call can do to the indexes of a session.** -/
inductive Effect (session : Session) (call : Call) : Outcome → Prop
  | created (split : Split) (hoperation : call.operation = .createIndex) :
      Effect session call
        ⟨{ session.hold session.nextHandle (Index.empty split) 0 with
            nextHandle := session.nextHandle + 1 }, .ok (.ofWord session.nextHandle)⟩
  | destroyed (handle : Handle) (hgives : call.GivesUp handle) :
      Effect session call
        ⟨{ session with
            indexes := session.indexes.erase handle
            nextIds := session.nextIds.erase handle }, .ok .undefined⟩
  | added (handle : Handle) (index : Index) (next : DocumentId) (after : Session)
      (answer : Except CallError Value)
      (hoperation : call.operation = .add ∨ call.operation = .addBatch)
      (hhandle : call.handle? = some handle) (hkeeps : session.Keeps handle index next)
      (hadds : Adds handle call.offered session after)
      (hnumbers : call.numbersGiven answer = []
        ∨ call.numbersGiven answer = (wordsFrom next call.offered.length).map .ofWord) :
      Effect session call ⟨after, answer⟩
  | idle (after : Session) (answer : Except CallError Value)
      (hambient : call.operation.takesHandle = true → after.ambient = session.ambient)
      (hindexes : after.indexes = session.indexes) (hnextIds : after.nextIds = session.nextIds)
      (hnextHandle : after.nextHandle = session.nextHandle) (hidle : Idle session call answer) :
      Effect session call ⟨after, answer⟩

/-- **A handle is found** exactly if an index is kept under it. -/
theorem find_eq_ok_iff {index : Index} : session.find value = .ok (handle, index)
    ↔ value.handle? = some handle ∧ session.indexes[handle]? = some index := by
  rw [Session.find]
  rcases value.handle? with - | other
  · exact ⟨nofun, fun h => absurd h.1 nofun⟩
  · dsimp only
    rcases hindex : session.indexes[other]? with - | found
    · refine ⟨nofun, fun ⟨hhandle, hsome⟩ => ?_⟩
      rw [← Option.some.inj hhandle, hindex] at hsome
      exact absurd hsome nofun
    · simp only [Except.ok.injEq, Prod.mk.injEq, Option.some.injEq]
      refine and_congr_right ?_
      rintro rfl
      rw [hindex, Option.some.injEq]

/-- What is not found is not kept. -/
theorem notMem_of_find {error : CallError} (hfind : session.find value = .error error)
    (hhandle : value.handle? = some handle) : handle ∉ session.indexes := by
  intro hmem
  obtain ⟨index, hindex⟩ := mem_table_iff.mp hmem
  rw [find_eq_ok_iff.mpr ⟨hhandle, hindex⟩] at hfind
  exact absurd hfind nofun

theorem ne_of_find {index : Index} {other : Handle}
    (hfind : session.find value = .ok (other, index)) (hhandle : value.handle? ≠ some handle) :
    other ≠ handle := by
  rintro rfl
  exact hhandle (find_eq_ok_iff.mp hfind).1

/-- Nothing is found under a handle that is not there. -/
theorem exists_find_eq_error (hhandle : value.handle? = some handle)
    (hnone : handle ∉ session.indexes) : ∃ error, session.find value = .error error := by
  rcases hfind : session.find value with error | ⟨other, index⟩
  · exact ⟨error, rfl⟩
  · obtain ⟨hother, hindex⟩ := find_eq_ok_iff.mp hfind
    obtain rfl := Option.some.inj (hhandle.symm.trans hother)
    exact absurd (mem_table_iff.mpr ⟨index, hindex⟩) hnone

/-- Under a handle that is not found nothing is added. -/
theorem added_of_find {error : CallError}
    (hfind : session.find (call.arguments.get 0) = .error error)
    (htakes : call.operation.takesHandle = true) (handle : Handle) :
    session.added call handle = [] := by
  refine if_neg fun ⟨hhandle, hmem⟩ => notMem_of_find hfind ?_ hmem
  rwa [Call.handle?, if_pos htakes] at hhandle

theorem added_of_offered (hoffered : call.offered = []) (handle : Handle) :
    session.added call handle = [] := by
  rw [Session.added, hoffered, ite_self]

theorem get_of_count_le {arguments : Arguments} {i : Nat} (h : arguments.count ≤ i) :
    arguments.get i = .undefined := by
  rw [Arguments.get, List.getElem?_eq_none h, Option.getD_none]

/-- A call that fails and gives up nothing, adds nothing. -/
theorem effect_of_error {error : CallError} (hoperation : call.operation ≠ .destroy)
    (hadded : ∀ handle, session.added call handle = []) :
    Effect session call (session.unchanged (.error error)) := by
  refine .idle session _ (fun _ => rfl) rfl rfl rfl
    ⟨?_, ?_, hadded, fun handle h => hoperation h.1⟩
  · rw [Call.handlesGiven]
    split <;> rfl
  · rw [Call.numbersGiven]
    split <;> rfl

theorem effect_add (h : session.Paired) (arguments : Arguments) :
    Effect session ⟨.add, arguments⟩ (session.add arguments).value := by
  rw [Session.add]
  split
  · next hcount =>
    refine effect_of_error nofun (added_of_offered ?_)
    rw [Call.offered, get_of_count_le (Nat.le_of_lt_succ hcount)]
    rfl
  · rcases hfind : session.find (arguments.get 0) with error | ⟨handle, index⟩
    · exact effect_of_error nofun (added_of_find hfind rfl)
    · obtain ⟨hhandle, hindex⟩ := find_eq_ok_iff.mp hfind
      obtain ⟨_, next, hkeeps⟩ := h.exists_keeps (mem_table_iff.mpr ⟨index, hindex⟩)
      obtain ⟨hadds, hanswer⟩ := addSignature_spec hkeeps (arguments.get 1) .signatureNotBuffer
      refine .added handle _ next _ _ (.inl rfl) hhandle hkeeps hadds ?_
      rw [hanswer]
      rcases hslots : (arguments.get 1).slots? with - | slots
      · exact .inl rfl
      · refine .inr ?_
        rw [Call.offered]
        dsimp only
        rw [leadingSlots_cons_of_some hslots, leadingSlots, List.length_singleton, wordsFrom_succ]
        rfl

/-- What is to be added is read off a list and a handle that is found. -/
theorem readAdditions_eq_ok_iff {arguments : Arguments} {values : List Value} :
    session.readAdditions arguments = .ok (handle, values) ↔ arguments.get 1 = .list values
      ∧ ∃ index, session.find (arguments.get 0) = .ok (handle, index) := by
  rw [Session.readAdditions]
  split
  · next hcount =>
    rw [get_of_count_le (Nat.le_of_lt_succ hcount)]
    exact ⟨nofun, fun h => absurd h.1 nofun⟩
  · cases hfind : session.find (arguments.get 0) with
    | error error => exact ⟨nofun, fun ⟨_, _, h⟩ => absurd h nofun⟩
    | ok found =>
      obtain ⟨other, index⟩ := found
      cases hvalues : arguments.get 1 with
      | list items =>
        change Except.ok (other, items) = _ ↔ _
        simp only [Except.ok.injEq, Prod.mk.injEq, Value.list.injEq]
        exact ⟨fun h => ⟨h.2, index, h.1, rfl⟩, fun ⟨hitems, _, hother, _⟩ => ⟨hother, hitems⟩⟩
      | _ => exact ⟨nofun, fun h => absurd h.1 nofun⟩

theorem effect_addBatch (h : session.Paired) (arguments : Arguments) :
    Effect session ⟨.addBatch, arguments⟩ (session.addBatch arguments).value := by
  rw [Session.addBatch]
  rcases hread : session.readAdditions arguments with error | ⟨handle, values⟩
  · refine effect_of_error nofun fun handle => ?_
    cases hvalues : arguments.get 1 with
    | list values =>
      cases hfind : session.find (arguments.get 0) with
      | error error => exact added_of_find hfind rfl handle
      | ok found =>
        rw [readAdditions_eq_ok_iff.mpr ⟨hvalues, found.2, hfind⟩] at hread
        exact absurd hread nofun
    | _ =>
      refine added_of_offered ?_ handle
      rw [Call.offered, hvalues]
  · obtain ⟨hvalues, index, hfind⟩ := readAdditions_eq_ok_iff.mp hread
    obtain ⟨hhandle, hindex⟩ := find_eq_ok_iff.mp hfind
    obtain ⟨_, next, hkeeps⟩ := h.exists_keeps (mem_table_iff.mpr ⟨index, hindex⟩)
    obtain ⟨hadds, hanswer⟩ := addEach_spec hkeeps [] values
    have hoffered : Call.offered ⟨.addBatch, arguments⟩ = leadingSlots values := by
      rw [Call.offered, hvalues]
    refine .added handle _ next _ _ (.inr rfl) hhandle hkeeps (hoffered ▸ hadds) ?_
    rw [hanswer, hoffered]
    rcases hrefused : firstRefused values with - | refused
    · refine .inr ?_
      rw [length_leadingSlots (firstRefused_eq_none_iff.mp hrefused)]
      exact List.append_nil _
    · exact .inl rfl

/-- A function that only looks. -/
theorem effect_of_unchanged (answer : Except CallError Value)
    (hhandles : call.handlesGiven answer = []) (hnumbers : call.numbersGiven answer = [])
    (hoffered : call.offered = []) (hoperation : call.operation ≠ .destroy) :
    Effect session call (session.unchanged answer) :=
  .idle session answer (fun _ => rfl) rfl rfl rfl
    ⟨hhandles, hnumbers, added_of_offered hoffered, fun _ h => hoperation h.1⟩

/-- **A call does one of the four things.** -/
theorem effect (h : session.Paired) (call : Call) : Effect session call (call.outcome session) := by
  obtain ⟨operation, arguments⟩ := call
  rw [Call.outcome]
  cases operation with
  | createIndex =>
    change Effect session _ (session.createIndex arguments)
    rw [Session.createIndex]
    cases readSplit arguments with
    | error error => exact effect_of_error nofun (added_of_offered rfl)
    | ok split => exact .created split rfl
  | add => exact effect_add h arguments
  | addBatch => exact effect_addBatch h arguments
  | destroy =>
    change Effect session _ (session.destroy arguments)
    rw [Session.destroy]
    cases hhandle : (arguments.get 0).handle? with
    | none =>
      refine .idle session _ (fun _ => rfl) rfl rfl rfl
        ⟨rfl, rfl, added_of_offered rfl, fun handle hgives => ?_⟩
      exact absurd (hhandle.symm.trans hgives.2) nofun
    | some handle => exact .destroyed handle ⟨rfl, hhandle⟩
  | setLevel =>
    change Effect session _ (session.setLevel arguments)
    rw [Session.setLevel]
    split
    · split
      · exact .idle _ _ nofun rfl rfl rfl ⟨rfl, rfl, added_of_offered rfl, nofun⟩
      · exact effect_of_error nofun (added_of_offered rfl)
    · exact effect_of_error nofun (added_of_offered rfl)
  | setThreads =>
    change Effect session _ (session.setThreads arguments)
    rw [Session.setThreads]
    split <;> exact .idle _ _ nofun rfl rfl rfl ⟨rfl, rfl, added_of_offered rfl, nofun⟩
  | buildLcpArray | buildSuffixArray | detectClones | findRepeats | getThreadCount | jaccard
  | candidatePairs | candidates | statistics | query | minhashSignature =>
    exact effect_of_unchanged _ rfl rfl rfl nofun

namespace Effect

variable {outcome : Outcome}

/-- **Both tables keep the same handles.** -/
theorem paired (h : Effect session call outcome) (hpaired : session.Paired) :
    outcome.session.Paired := by
  cases h with
  | created split hoperation =>
    intro other
    change other ∈ session.indexes.insert _ _ ↔ other ∈ session.nextIds.insert _ _
    rw [Std.HashMap.mem_insert, Std.HashMap.mem_insert, hpaired other]
  | destroyed handle hgives =>
    intro other
    change other ∈ session.indexes.erase _ ↔ other ∈ session.nextIds.erase _
    rw [Std.HashMap.mem_erase, Std.HashMap.mem_erase, hpaired other]
  | added handle index next after answer hoperation hhandle hkeeps hadds hnumbers =>
    intro other
    rw [(hadds.mem_iff hkeeps other).1, (hadds.mem_iff hkeeps other).2, hpaired other]
  | idle after answer hambient hindexes hnextIds hnextHandle hidle =>
    intro other
    rw [hindexes, hnextIds, hpaired other]

/-- **An index is there** if it was just made, or if it was there and is not given up. -/
theorem mem_indexes_iff (h : Effect session call outcome) (handle : Handle) :
    handle ∈ outcome.session.indexes ↔ .ofWord handle ∈ call.handlesGiven outcome.answer
      ∨ handle ∈ session.indexes ∧ ¬call.GivesUp handle := by
  cases h with
  | created split hoperation =>
    have hkeeps : ¬call.GivesUp handle := fun hgives => by
      rw [Call.GivesUp, hoperation] at hgives
      exact absurd hgives.1 nofun
    rw [Call.handlesGiven, hoperation]
    change handle ∈ session.indexes.insert _ _ ↔ Value.ofWord handle ∈ [Value.ofWord _] ∨ _
    rw [Std.HashMap.mem_insert, beq_iff_eq, List.mem_singleton, Value.ofWord_injective.eq_iff,
      and_iff_left hkeeps, eq_comm]
  | destroyed other hgives =>
    have hiff : call.GivesUp handle ↔ other = handle := by
      rw [Call.GivesUp, hgives.2, Option.some.injEq, and_iff_right hgives.1]
    rw [Call.handlesGiven, hgives.1, hiff]
    change handle ∈ session.indexes.erase _ ↔ _ ∈ [] ∨ _
    rw [Std.HashMap.mem_erase, and_comm]
    simp
  | added other index next after answer hoperation hhandle hkeeps hadds hnumbers =>
    have hhandles : call.handlesGiven answer = [] := by
      rcases hoperation with hoperation | hoperation <;> rw [Call.handlesGiven, hoperation]
    have hgives : ¬call.GivesUp handle := fun hgives => by
      rcases hoperation with hoperation | hoperation <;>
        exact absurd (hoperation.symm.trans hgives.1) nofun
    rw [hhandles, and_iff_left hgives, (hadds.mem_iff hkeeps handle).1]
    simp
  | idle after answer hambient hindexes hnextIds hnextHandle hidle =>
    rw [hidle.handles, hindexes, and_iff_left (hidle.keeps handle)]
    simp

/-- **A call that names a handle** changes nothing under the others. -/
theorem agreeOff (h : Effect session call outcome) (hhandle : call.handle? = some handle) :
    AgreeOff handle session outcome.session := by
  have htakes : call.operation.takesHandle = true := by
    by_contra hnot
    rw [Call.handle?, if_neg hnot] at hhandle
    exact absurd hhandle nofun
  cases h with
  | created split hoperation =>
    rw [hoperation] at htakes
    exact absurd htakes Bool.false_ne_true
  | destroyed other hgives =>
    obtain rfl := Option.some.inj (hgives.2.symm.trans hhandle)
    refine ⟨rfl, rfl, fun third hthird => ?_, fun third hthird => ?_⟩
    · rw [Std.HashMap.getElem?_erase, if_neg fun heq => hthird (beq_iff_eq.mp heq).symm]
    · rw [Std.HashMap.getElem?_erase, if_neg fun heq => hthird (beq_iff_eq.mp heq).symm]
  | added other index next after answer hoperation hhandle' hkeeps hadds hnumbers =>
    obtain rfl := Option.some.inj (hhandle'.symm.trans hhandle)
    exact hadds.elsewhere
  | idle after answer hambient hindexes hnextIds hnextHandle hidle =>
    exact ⟨(hambient htakes).symm, hnextHandle.symm, fun _ _ => by rw [hindexes],
      fun _ _ => by rw [hnextIds]⟩

end Effect

/-! ## Unknown handles -/

/-- **A call that names an unknown handle is refused** and changes nothing, unless it gives the
handle up. -/
theorem outcome_of_unknown (hhandle : call.handle? = some handle)
    (hoperation : call.operation ≠ .destroy) (hnone : handle ∉ session.indexes) :
    ∃ error, call.outcome session = session.unchanged (.error error) := by
  obtain ⟨operation, arguments⟩ := call
  rw [Call.handle?] at hhandle
  split at hhandle
  case isFalse => exact absurd hhandle nofun
  case isTrue htakes =>
    obtain ⟨error, hfind⟩ := exists_find_eq_error hhandle hnone
    dsimp only at hfind
    rw [Call.outcome]
    cases operation with
    | add =>
      change ∃ error, (session.add arguments).value = _
      rw [Session.add, hfind]
      split <;> exact ⟨_, rfl⟩
    | addBatch =>
      change ∃ error, (session.addBatch arguments).value = _
      rw [Session.addBatch]
      rcases hread : session.readAdditions arguments with other | ⟨other, values⟩
      · exact ⟨other, rfl⟩
      · obtain ⟨-, index, hok⟩ := readAdditions_eq_ok_iff.mp hread
        exact absurd (hfind.symm.trans hok) nofun
    | candidatePairs =>
      change ∃ error, session.unchanged (session.candidatePairs arguments) = _
      rw [Session.candidatePairs, hfind]
      split <;> exact ⟨_, rfl⟩
    | candidates =>
      change ∃ error, session.unchanged (session.candidates arguments) = _
      rw [Session.candidates, hfind]
      split <;> exact ⟨_, rfl⟩
    | statistics =>
      change ∃ error, session.unchanged (session.statistics arguments) = _
      rw [Session.statistics, hfind]
      split <;> exact ⟨_, rfl⟩
    | query =>
      change ∃ error, session.unchanged (session.query arguments) = _
      rw [Session.query, hfind]
      split <;> exact ⟨_, rfl⟩
    | destroy => exact absurd rfl hoperation
    | _ => exact absurd htakes Bool.false_ne_true

/-! ## Sessions that differ under a handle that is not named -/

section AgreeOff

variable (h : AgreeOff handle s t)

include h

theorem AgreeOff.find (hother : value.handle? ≠ some handle) : s.find value = t.find value := by
  rw [Session.find, Session.find]
  cases hvalue : value.handle? with
  | none => rfl
  | some other =>
    dsimp only
    rw [h.indexes other fun heq => hother (hvalue.trans (congrArg some heq))]

theorem AgreeOff.nextId {other : Handle} (hother : other ≠ handle) :
    s.nextId other = t.nextId other := by
  rw [Session.nextId, Session.nextId, Std.HashMap.getD_eq_getD_getElem?,
    Std.HashMap.getD_eq_getD_getElem?, h.nextIds other hother]

theorem AgreeOff.hold_both (other : Handle) (index : Index) (next : DocumentId) :
    AgreeOff handle (s.hold other index next) (t.hold other index next) where
  ambient := h.ambient
  nextHandle := h.nextHandle
  indexes third hthird := by
    rw [Session.hold, Session.hold, Std.HashMap.getElem?_insert, Std.HashMap.getElem?_insert,
      h.indexes third hthird]
  nextIds third hthird := by
    rw [Session.hold, Session.hold, Std.HashMap.getElem?_insert, Std.HashMap.getElem?_insert,
      h.nextIds third hthird]

theorem AgreeOff.startCount_both (other : Handle) :
    AgreeOff handle (s.startCount other) (t.startCount other) where
  ambient := h.ambient
  nextHandle := h.nextHandle
  indexes := h.indexes
  nextIds third hthird := by
    rw [Session.startCount, Session.startCount, Std.HashMap.getElem?_insertIfNew,
      Std.HashMap.getElem?_insertIfNew, h.nextIds third hthird]
    by_cases heq : other = third
    · subst heq
      simp only [mem_table_congr (h.nextIds other hthird)]
    · rw [if_neg fun hnew => heq (beq_iff_eq.mp hnew.1),
        if_neg fun hnew => heq (beq_iff_eq.mp hnew.1)]

theorem AgreeOff.addSignature {other : Handle} (hother : other ≠ handle) (value : Value)
    (notBuffer : CallError) :
    AgreeOff handle (s.addSignature other value notBuffer).value.session
        (t.addSignature other value notBuffer).value.session
      ∧ (s.addSignature other value notBuffer).value.answer
        = (t.addSignature other value notBuffer).value.answer := by
  rw [Session.addSignature, Session.addSignature, h.indexes other hother]
  cases t.indexes[other]? with
  | none => exact ⟨h, rfl⟩
  | some index =>
    cases value.rawBytes? with
    | none => exact ⟨h, rfl⟩
    | some bytes =>
      dsimp only
      cases readSlots bytes with
      | error error => exact ⟨h.startCount_both other, rfl⟩
      | ok slots =>
        dsimp only
        rw [h.nextId hother]
        exact ⟨h.hold_both other _ _, rfl⟩

theorem AgreeOff.addEach {other : Handle} (hother : other ≠ handle) (numbers values : List Value) :
    AgreeOff handle (s.addEach other numbers values).value.session
        (t.addEach other numbers values).value.session
      ∧ (s.addEach other numbers values).value.answer
        = (t.addEach other numbers values).value.answer := by
  induction values generalizing s t numbers with
  | nil => exact ⟨h, rfl⟩
  | cons value values ih =>
    obtain ⟨hsession, hanswer⟩ := h.addSignature hother value .signaturesNotBuffers
    rw [Session.addEach, Session.addEach, Logged.value_bind, Logged.value_bind, ← hanswer]
    cases (s.addSignature other value .signaturesNotBuffers).value.answer with
    | error error => exact ⟨hsession, hanswer⟩
    | ok number => exact ih hsession (number :: numbers)

/-! ### One operation after the other -/

variable (arguments : Arguments)

theorem AgreeOff.createIndex :
    AgreeOff handle (s.createIndex arguments).session (t.createIndex arguments).session
      ∧ (s.createIndex arguments).answer = (t.createIndex arguments).answer := by
  rw [Session.createIndex, Session.createIndex, h.nextHandle]
  cases readSplit arguments with
  | error error => exact ⟨h, rfl⟩
  | ok split =>
    have hhold := h.hold_both t.nextHandle (Index.empty split) 0
    exact ⟨⟨hhold.ambient, rfl, hhold.indexes, hhold.nextIds⟩, rfl⟩

theorem AgreeOff.destroy :
    AgreeOff handle (s.destroy arguments).session (t.destroy arguments).session
      ∧ (s.destroy arguments).answer = (t.destroy arguments).answer := by
  rw [Session.destroy, Session.destroy]
  cases (arguments.get 0).handle? with
  | none => exact ⟨h, rfl⟩
  | some other =>
    refine ⟨⟨h.ambient, h.nextHandle, fun third hthird => ?_, fun third hthird => ?_⟩, rfl⟩
    · rw [Std.HashMap.getElem?_erase, Std.HashMap.getElem?_erase, h.indexes third hthird]
    · rw [Std.HashMap.getElem?_erase, Std.HashMap.getElem?_erase, h.nextIds third hthird]

theorem AgreeOff.setLevel :
    AgreeOff handle (s.setLevel arguments).session (t.setLevel arguments).session
      ∧ (s.setLevel arguments).answer = (t.setLevel arguments).answer := by
  rw [Session.setLevel, Session.setLevel, h.ambient]
  split
  · split
    · exact ⟨⟨rfl, h.nextHandle, h.indexes, h.nextIds⟩, rfl⟩
    · exact ⟨h, rfl⟩
  · exact ⟨h, rfl⟩

theorem AgreeOff.setThreads :
    AgreeOff handle (s.setThreads arguments).session (t.setThreads arguments).session
      ∧ (s.setThreads arguments).answer = (t.setThreads arguments).answer := by
  rw [Session.setThreads, Session.setThreads, h.ambient]
  split
  · exact ⟨⟨rfl, h.nextHandle, h.indexes, h.nextIds⟩, rfl⟩
  · exact ⟨h, rfl⟩

section Named

variable {arguments : Arguments} (hother : (arguments.get 0).handle? ≠ some handle)

include hother

theorem AgreeOff.add :
    AgreeOff handle (s.add arguments).value.session (t.add arguments).value.session
      ∧ (s.add arguments).value.answer = (t.add arguments).value.answer := by
  rw [Session.add, Session.add, h.find hother]
  split
  · exact ⟨h, rfl⟩
  · rcases hfind : t.find (arguments.get 0) with error | ⟨other, index⟩
    · exact ⟨h, rfl⟩
    · exact h.addSignature (ne_of_find hfind hother) _ _

theorem AgreeOff.addBatch :
    AgreeOff handle (s.addBatch arguments).value.session (t.addBatch arguments).value.session
      ∧ (s.addBatch arguments).value.answer = (t.addBatch arguments).value.answer := by
  have hread : s.readAdditions arguments = t.readAdditions arguments := by
    rw [Session.readAdditions, Session.readAdditions, h.find hother]
  rw [Session.addBatch, Session.addBatch, hread]
  rcases hvalues : t.readAdditions arguments with error | ⟨other, values⟩
  · exact ⟨h, rfl⟩
  · obtain ⟨-, index, hfind⟩ := readAdditions_eq_ok_iff.mp hvalues
    exact h.addEach (ne_of_find hfind hother) _ _

end Named

omit arguments in
/-- **A handle that is not named is of no account** — neither for the answer of the call nor for
what it leaves behind under the other handles. -/
theorem AgreeOff.outcome {call : Call} (hother : call.handle? ≠ some handle) :
    AgreeOff handle (call.outcome s).session (call.outcome t).session
      ∧ (call.outcome s).answer = (call.outcome t).answer := by
  obtain ⟨operation, arguments⟩ := call
  rw [Call.outcome, Call.outcome]
  cases operation with
  | buildLcpArray | buildSuffixArray | findRepeats | jaccard | minhashSignature =>
    exact ⟨h, rfl⟩
  | createIndex => exact h.createIndex arguments
  | destroy => exact h.destroy arguments
  | add => exact h.add hother
  | addBatch => exact h.addBatch hother
  | setLevel => exact h.setLevel arguments
  | setThreads => exact h.setThreads arguments
  | detectClones =>
    change AgreeOff handle s t ∧ (Script.detectClones s.ambient arguments).value
      = (Script.detectClones t.ambient arguments).value
    rw [h.ambient]
    exact ⟨h, rfl⟩
  | getThreadCount =>
    change AgreeOff handle s t
      ∧ Except.ok (Value.ofNat s.ambient.threads) = .ok (.ofNat t.ambient.threads)
    rw [h.ambient]
    exact ⟨h, rfl⟩
  | candidatePairs =>
    change AgreeOff handle s t ∧ s.candidatePairs arguments = t.candidatePairs arguments
    rw [Session.candidatePairs, Session.candidatePairs, h.find hother, h.ambient]
    exact ⟨h, rfl⟩
  | candidates =>
    change AgreeOff handle s t ∧ s.candidates arguments = t.candidates arguments
    rw [Session.candidates, Session.candidates, h.find hother]
    exact ⟨h, rfl⟩
  | statistics =>
    change AgreeOff handle s t ∧ s.statistics arguments = t.statistics arguments
    rw [Session.statistics, Session.statistics, h.find hother]
    exact ⟨h, rfl⟩
  | query =>
    change AgreeOff handle s t ∧ s.query arguments = t.query arguments
    rw [Session.query, Session.query, h.find hother]
    exact ⟨h, rfl⟩

end AgreeOff

end CodeClones.Script
