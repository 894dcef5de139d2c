import CodeClones.Proofs.Script.Step

/-!
# Proofs/Script/History — the indexes of a session after any sequence of calls

`Tally` ties a session to the calls that led to it: how many handles they were given, how many
signatures they added under each handle and which numbers they were answered.  Each of the four
things that a call can do keeps it (`Tally.create`, `Tally.destroy`, `Tally.add`, `Tally.idle`), so
it holds after every history (`tally_after`).
-/

namespace CodeClones.Script

/-! ## Sequences of calls -/

namespace Session

/-- The session after some calls. -/
def after (session : Session) (calls : List Call) : Session :=
  calls.foldl (fun session call => (call.outcome session).session) session

/-- What some calls contribute, each in the session that it meets. -/
def gather {β : Type} (contribution : Session → Call → List β) (session : Session) :
    List Call → List β
  | [] => []
  | call :: calls =>
    contribution session call ++ gather contribution (call.outcome session).session calls

/-- The handles that some calls answer. -/
def handlesGiven (session : Session) (calls : List Call) : List Value :=
  session.gather (fun session call => call.handlesGiven (call.outcome session).answer) calls

/-- The numbers of signatures that a call under a handle answers. -/
def numbersOf (handle : Handle) (session : Session) (call : Call) : List Value :=
  if call.handle? = some handle then call.numbersGiven (call.outcome session).answer else []

/-- The numbers of signatures that some calls answer under a handle. -/
def numbersGiven (session : Session) (handle : Handle) (calls : List Call) : List Value :=
  session.gather (numbersOf handle) calls

/-- The signatures that some calls add under a handle. -/
def additions (session : Session) (handle : Handle) (calls : List Call) : List (Array UInt64) :=
  session.gather (fun session call => session.added call handle) calls

variable {β : Type} (contribution : Session → Call → List β) (session : Session)
  (calls more : List Call) (call : Call)

theorem after_append : session.after (calls ++ more) = (session.after calls).after more :=
  List.foldl_append

theorem after_concat :
    session.after (calls ++ [call]) = (call.outcome (session.after calls)).session :=
  session.after_append calls [call]

theorem gather_append : session.gather contribution (calls ++ more)
    = session.gather contribution calls ++ (session.after calls).gather contribution more := by
  induction calls generalizing session with
  | nil => rfl
  | cons call calls ih =>
    rw [List.cons_append, gather, gather, ih, List.append_assoc]
    rfl

theorem gather_concat : session.gather contribution (calls ++ [call])
    = session.gather contribution calls ++ contribution (session.after calls) call := by
  rw [gather_append]
  exact congrArg (_ ++ ·) (List.append_nil _)

end Session

/-! ## What a session has to do with its history -/

theorem getElem?_of_erase {β : Type} {table : Std.HashMap Handle β} {handle other : Handle} {b : β}
    (h : (table.erase handle)[other]? = some b) : other ≠ handle ∧ table[other]? = some b := by
  rw [Std.HashMap.getElem?_erase] at h
  split at h
  · exact absurd h nofun
  · next hne => exact ⟨fun heq => hne (beq_iff_eq.mpr heq.symm), h⟩

/-- **The state of a session in terms of what was done** — `created` handles were given, `added`
signatures were added under each handle and `numbers` were answered. -/
structure Tally (session : Session) (created : Nat) (added : Handle → Nat)
    (numbers : Handle → List Value) : Prop where
  nextHandle : session.nextHandle = 1 + .ofNat created
  given : ∀ {handle : Handle}, handle ∈ session.indexes → handle ∈ wordsFrom 1 created
  unused : ∀ {handle : Handle}, handle ∉ wordsFrom 1 created → added handle = 0
  next : ∀ {handle : Handle} {next : DocumentId},
    session.nextIds[handle]? = some next → next = .ofNat (added handle)
  numbers : ∀ handle, ∃ ids : List DocumentId,
    ids.Sublist (wordsFrom 0 (added handle)) ∧ numbers handle = ids.map .ofWord
  sound : ∀ {handle : Handle} {index : Index},
    session.indexes[handle]? = some index → index.Sound
  stored : ∀ {handle : Handle} {index : Index} {id : DocumentId} {signature : Signature},
    session.indexes[handle]? = some index → index.signature? id = some signature →
      id ∈ wordsFrom 0 (added handle)

namespace Tally

variable {session after : Session} {created : Nat} {added : Handle → Nat}
  {numbers : Handle → List Value} {handle : Handle} {index : Index} {next : DocumentId}

theorem start (ambient : Ambient) : Tally (.start ambient) 0 (fun _ => 0) fun _ => [] where
  nextHandle := rfl
  given h := absurd h Std.HashMap.not_mem_empty
  unused _ := rfl
  next h := absurd (Std.HashMap.getElem?_empty.symm.trans h) nofun
  numbers _ := ⟨[], .slnil, rfl⟩
  sound h := absurd (Std.HashMap.getElem?_empty.symm.trans h) nofun
  stored h := absurd (Std.HashMap.getElem?_empty.symm.trans h) nofun

/-- **The next handle is new.** -/
theorem nextHandle_notMem (h : Tally session created added numbers) (hroom : created < 2 ^ 32) :
    session.nextHandle ∉ wordsFrom 1 created := by
  rw [h.nextHandle]
  exact notMem_wordsFrom hroom

theorem create (h : Tally session created added numbers) (hroom : created < 2 ^ 32)
    (split : Split) :
    Tally { session.hold session.nextHandle (.empty split) 0 with
      nextHandle := session.nextHandle + 1 } (created + 1) added numbers := by
  have hnew := h.nextHandle_notMem hroom
  have hgrow : wordsFrom 1 (created + 1) = wordsFrom 1 created ++ [session.nextHandle] := by
    rw [wordsFrom_add, h.nextHandle, wordsFrom_succ]
    rfl
  have hindexes : ∀ {handle : Handle} {index : Index},
      (session.indexes.insert session.nextHandle (.empty split))[handle]? = some index →
        session.nextHandle = handle ∧ .empty split = index
          ∨ session.indexes[handle]? = some index := by
    intro handle index hindex
    rw [Std.HashMap.getElem?_insert] at hindex
    split at hindex
    · next heq => exact .inl ⟨beq_iff_eq.mp heq, Option.some.inj hindex⟩
    · exact .inr hindex
  refine ⟨?_, fun {handle} hmem => ?_, fun {handle} hmem => ?_, fun {handle next} hnext => ?_,
    h.numbers, fun {handle index} hindex => ?_, fun {handle index id signature} hindex hid => ?_⟩
  · rw [h.nextHandle, UInt32.add_assoc, UInt32.ofNat_add]
    rfl
  · change handle ∈ session.indexes.insert _ _ at hmem
    rw [hgrow, List.mem_append, List.mem_singleton]
    rw [Std.HashMap.mem_insert] at hmem
    exact hmem.symm.imp h.given fun heq => (beq_iff_eq.mp heq).symm
  · rw [hgrow, List.mem_append, not_or] at hmem
    exact h.unused hmem.1
  · change (session.nextIds.insert _ _)[handle]? = _ at hnext
    rw [Std.HashMap.getElem?_insert] at hnext
    split at hnext
    · next heq =>
      rw [← beq_iff_eq.mp heq, h.unused hnew, ← Option.some.inj hnext]
      rfl
    · exact h.next hnext
  · rcases hindexes hindex with ⟨-, rfl⟩ | hold
    · exact Index.sound_empty split
    · exact h.sound hold
  · rcases hindexes hindex with ⟨-, rfl⟩ | hold
    · rw [Index.signature?_empty] at hid
      exact absurd hid nofun
    · exact h.stored hold hid

theorem destroy (h : Tally session created added numbers) (handle : Handle) :
    Tally { session with
      indexes := session.indexes.erase handle
      nextIds := session.nextIds.erase handle } created added numbers where
  nextHandle := h.nextHandle
  given hmem := h.given (Std.HashMap.mem_of_mem_erase hmem)
  unused := h.unused
  next hnext := h.next (getElem?_of_erase hnext).2
  numbers := h.numbers
  sound hindex := h.sound (getElem?_of_erase hindex).2
  stored hindex := h.stored (getElem?_of_erase hindex).2

theorem add (h : Tally session created added numbers) (hkeeps : session.Keeps handle index next)
    {signatures : List (Array UInt64)} (hadds : Adds handle signatures session after)
    {given : List Value}
    (hgiven : given = [] ∨ given = (wordsFrom next signatures.length).map .ofWord) :
    Tally after created
      (fun other => added other + if other = handle then signatures.length else 0)
      fun other => numbers other ++ if other = handle then given else [] := by
  obtain ⟨hindexes, hnextIds⟩ := hadds.keeps hkeeps
  obtain rfl := h.next hkeeps.nextIds
  refine ⟨hadds.elsewhere.nextHandle ▸ h.nextHandle,
    fun {other} hmem => h.given ((hadds.mem_iff hkeeps other).1.mp hmem), fun {other} hmem => ?_,
    fun {other next} hnext => ?_, fun other => ?_, fun {other index'} hindex => ?_,
    fun {other index' id signature} hindex hid => ?_⟩
  · have hne : other ≠ handle := fun heq => hmem (heq ▸ h.given hkeeps.mem_indexes)
    rw [if_neg hne, h.unused hmem]
  · by_cases heq : other = handle
    · subst heq
      rw [if_pos rfl, UInt32.ofNat_add]
      exact Option.some.inj (hnext.symm.trans hnextIds)
    · rw [if_neg heq]
      exact h.next ((hadds.elsewhere.nextIds other heq).trans hnext)
  · obtain ⟨ids, hsublist, hids⟩ := h.numbers other
    by_cases heq : other = handle
    · subst heq
      rw [if_pos rfl, if_pos rfl, wordsFrom_add, UInt32.zero_add, hids]
      rcases hgiven with rfl | rfl
      · exact ⟨ids, hsublist.trans (List.sublist_append_left _ _), List.append_nil _⟩
      · exact ⟨_, hsublist.append (.refl _), List.map_append.symm⟩
    · rw [if_neg heq, if_neg heq, List.append_nil]
      exact ⟨ids, hsublist, hids⟩
  · by_cases heq : other = handle
    · subst heq
      rw [← Option.some.inj (hindexes.symm.trans hindex)]
      exact (h.sound hkeeps.indexes).insertFrom _ _
    · exact h.sound ((hadds.elsewhere.indexes other heq).trans hindex)
  · by_cases heq : other = handle
    · subst heq
      rw [← Option.some.inj (hindexes.symm.trans hindex)] at hid
      rw [if_pos rfl, wordsFrom_add, UInt32.zero_add, List.mem_append]
      exact (Index.mem_wordsFrom_of_signature? hid).imp_left
        fun ⟨_, hold⟩ => h.stored hkeeps.indexes hold
    · rw [if_neg heq]
      exact h.stored ((hadds.elsewhere.indexes other heq).trans hindex) hid

theorem idle (h : Tally session created added numbers) (hindexes : after.indexes = session.indexes)
    (hnextIds : after.nextIds = session.nextIds)
    (hnextHandle : after.nextHandle = session.nextHandle) : Tally after created added numbers where
  nextHandle := hnextHandle.trans h.nextHandle
  given hmem := h.given (hindexes ▸ hmem)
  unused := h.unused
  next hnext := h.next (hnextIds ▸ hnext)
  numbers := h.numbers
  sound hindex := h.sound (hindexes ▸ hindex)
  stored hindex := h.stored (hindexes ▸ hindex)

/-- **One call.** -/
theorem step (h : Tally session created added numbers) (hpaired : session.Paired) (call : Call)
    (hroom : created + (call.handlesGiven (call.outcome session).answer).length ≤ 2 ^ 32) :
    Tally (call.outcome session).session
        (created + (call.handlesGiven (call.outcome session).answer).length)
        (fun handle => added handle + (session.added call handle).length)
        (fun handle => numbers handle ++ Session.numbersOf handle session call)
      ∧ call.handlesGiven (call.outcome session).answer
        = (wordsFrom (1 + .ofNat created)
          (call.handlesGiven (call.outcome session).answer).length).map .ofWord := by
  have heffect := effect hpaired call
  unfold Session.numbersOf
  generalize call.outcome session = outcome at hroom heffect ⊢
  cases heffect with
  | created split hoperation =>
    have hhandles : call.handlesGiven (.ok (.ofWord session.nextHandle))
        = [.ofWord session.nextHandle] := by
      rw [Call.handlesGiven, hoperation]
      rfl
    have hadded : ∀ handle, session.added call handle = [] := added_of_offered (by
      rw [Call.offered, hoperation])
    have hhandle : call.handle? = none := by
      rw [Call.handle?, hoperation]
      rfl
    rw [hhandles] at hroom ⊢
    simp only [hadded, hhandle, List.length_nil, Nat.add_zero, reduceCtorEq, if_false,
      List.append_nil]
    refine ⟨h.create hroom split, ?_⟩
    rw [List.length_singleton, wordsFrom_succ, ← h.nextHandle]
    rfl
  | destroyed handle hgives =>
    have hhandles : call.handlesGiven (.ok .undefined) = [] := by
      rw [Call.handlesGiven, hgives.1]
    have hnumbers : call.numbersGiven (.ok .undefined) = [] := by
      rw [Call.numbersGiven, hgives.1]
    have hadded : ∀ handle, session.added call handle = [] := added_of_offered (by
      rw [Call.offered, hgives.1])
    simp only [hadded, hhandles, hnumbers, List.length_nil, Nat.add_zero, ite_self,
      List.append_nil]
    exact ⟨h.destroy handle, rfl⟩
  | added handle index next after answer hoperation hhandle hkeeps hadds hnumbers =>
    have hhandles : call.handlesGiven answer = [] := by
      rcases hoperation with hoperation | hoperation <;> rw [Call.handlesGiven, hoperation]
    have hadded : ∀ other, (session.added call other).length
        = if other = handle then call.offered.length else 0 := fun other => by
      rw [added_eq hhandle hkeeps.mem_indexes]
      split <;> rfl
    have hnumbersOf : ∀ other, (if call.handle? = some other then call.numbersGiven answer else [])
        = if other = handle then call.numbersGiven answer else [] := fun other => by
      rw [hhandle]
      simp only [Option.some.injEq, eq_comm]
    simp only [hadded, hnumbersOf, hhandles, List.length_nil, Nat.add_zero]
    exact ⟨h.add hkeeps hadds hnumbers, rfl⟩
  | idle after answer hambient hindexes hnextIds hnextHandle hidle =>
    simp only [hidle.added, hidle.handles, hidle.numbers, List.length_nil, Nat.add_zero, ite_self,
      List.append_nil]
    exact ⟨h.idle hindexes hnextIds hnextHandle, rfl⟩

end Tally

/-- **Both tables always have the same handles.** -/
theorem paired_after (ambient : Ambient) (history : List Call) :
    ((Session.start ambient).after history).Paired := by
  induction history using List.reverseRecOn with
  | nil => exact fun _ => iff_of_false Std.HashMap.not_mem_empty Std.HashMap.not_mem_empty
  | append_singleton history call ih =>
    rw [Session.after_concat]
    exact (effect ih call).paired ih

/-- **The state of a session after any calls** — as long as they are given no more handles than
there are. -/
theorem tally_after (ambient : Ambient) (history : List Call)
    (hroom : ((Session.start ambient).handlesGiven history).length ≤ 2 ^ 32) :
    Tally ((Session.start ambient).after history)
        ((Session.start ambient).handlesGiven history).length
        (fun handle => ((Session.start ambient).additions handle history).length)
        (fun handle => (Session.start ambient).numbersGiven handle history)
      ∧ (Session.start ambient).handlesGiven history
        = (wordsFrom 1 ((Session.start ambient).handlesGiven history).length).map .ofWord := by
  induction history using List.reverseRecOn with
  | nil => exact ⟨.start ambient, rfl⟩
  | append_singleton history call ih =>
    simp only [Session.handlesGiven, Session.additions, Session.numbersGiven, Session.gather_concat,
      Session.after_concat, List.length_append] at hroom ih ⊢
    obtain ⟨htally, hgiven⟩ := ih (Nat.le_of_add_right_le hroom)
    obtain ⟨hstep, hnew⟩ := htally.step (paired_after ambient history) call hroom
    refine ⟨hstep, ?_⟩
    rw [wordsFrom_add, List.map_append]
    exact congrArg₂ (· ++ ·) hgiven hnew

end CodeClones.Script
