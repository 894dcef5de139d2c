import CodeClones.Proofs.Script.History

/-!
# Proofs/Script/Handles — the laws of the handle table

After any sequence of calls, valid or failing, the handles and the numbers of signatures that were
answered are in order, no signature was replaced, and a handle is no business of the calls that do
not name it.  The state of the table comes from `tally_after`; `signature?_after` follows a stored
signature through the calls, and `AgreeOff.after` follows two sessions that differ under one handle.
-/

namespace CodeClones.Script

/-- **A handle is live** if some call answered it and no call has given it up since. -/
def Session.Live (session : Session) (history : List Call) (handle : Handle) : Prop :=
  ∃ before call since, history = before ++ call :: since
    ∧ .ofWord handle ∈ call.handlesGiven (call.outcome (session.after before)).answer
    ∧ ∀ later ∈ since, ¬later.GivesUp handle

variable {session s t : Session} {ambient : Ambient} {history : List Call} {handle : Handle}

/-! ## Live handles -/

theorem live_concat_iff {call : Call} : session.Live (history ++ [call]) handle
    ↔ .ofWord handle ∈ call.handlesGiven (call.outcome (session.after history)).answer
      ∨ session.Live history handle ∧ ¬call.GivesUp handle := by
  constructor
  · rintro ⟨before, given, since, heq, hgiven, hkept⟩
    rcases List.eq_nil_or_concat since with rfl | ⟨since, last, rfl⟩
    · obtain ⟨rfl, hcall⟩ := List.append_inj' heq rfl
      obtain rfl := (List.cons.inj hcall).1
      exact .inl hgiven
    · rw [List.concat_eq_append, ← List.cons_append, ← List.append_assoc] at heq
      obtain ⟨rfl, hcall⟩ := List.append_inj' heq rfl
      obtain rfl := (List.cons.inj hcall).1
      rw [List.concat_eq_append] at hkept
      exact .inr ⟨⟨before, given, since, rfl, hgiven, fun later hlater =>
        hkept later (List.mem_append_left _ hlater)⟩, hkept call List.mem_concat_self⟩
  · rintro (hgiven | ⟨⟨before, given, since, rfl, hgiven, hkept⟩, hcall⟩)
    · exact ⟨history, call, [], rfl, hgiven, fun _ h => absurd h List.not_mem_nil⟩
    · refine ⟨before, given, since ++ [call], by simp, hgiven, fun later hlater => ?_⟩
      rcases List.mem_append.mp hlater with hlater | hlater
      · exact hkept later hlater
      · rwa [List.mem_singleton.mp hlater]

/-- **The live handles are those in the table.** -/
theorem mem_indexes_iff_live (ambient : Ambient) (history : List Call) (handle : Handle) :
    handle ∈ ((Session.start ambient).after history).indexes
      ↔ (Session.start ambient).Live history handle := by
  induction history using List.reverseRecOn with
  | nil =>
    refine iff_of_false Std.HashMap.not_mem_empty ?_
    rintro ⟨before, call, since, heq, -⟩
    exact List.append_ne_nil_of_right_ne_nil before (List.cons_ne_nil call since) heq.symm
  | append_singleton history call ih =>
    rw [Session.after_concat, live_concat_iff, ← ih]
    exact (effect (paired_after ambient history) call).mem_indexes_iff handle

/-- An index that is there after some calls was there before them, or they made it. -/
theorem mem_indexes_of_after (hpaired : session.Paired) {calls : List Call}
    (hmem : handle ∈ (session.after calls).indexes) :
    handle ∈ session.indexes ∨ .ofWord handle ∈ session.handlesGiven calls := by
  induction calls generalizing session with
  | nil => exact .inl hmem
  | cons call calls ih =>
    have heffect := effect hpaired call
    rw [Session.handlesGiven, Session.gather, List.mem_append]
    rcases ih (heffect.paired hpaired) hmem with hnow | hlater
    · rcases (heffect.mem_indexes_iff handle).mp hnow with hgiven | ⟨hbefore, -⟩
      · exact .inr (.inl hgiven)
      · exact .inl hbefore
    · exact .inr (.inr hlater)

/-! ## Bounds -/

/-- **The counters have not come round** — fewer than `2 ^ 32 - 1` handles were given, and fewer
than `2 ^ 32 - 1` signatures added under each. -/
structure Session.InBounds (session : Session) (history : List Call) : Prop where
  handles : (session.handlesGiven history).length < 2 ^ 32 - 1
  additions : ∀ handle, (session.additions handle history).length < 2 ^ 32 - 1

theorem Session.InBounds.of_append {earlier later : List Call}
    (h : session.InBounds (earlier ++ later)) : session.InBounds earlier where
  handles := by
    have hhandles := h.handles
    rw [handlesGiven, gather_append, List.length_append] at hhandles
    exact (Nat.le_add_right _ _).trans_lt hhandles
  additions handle := by
    have hadditions := h.additions handle
    rw [Session.additions, gather_append, List.length_append] at hadditions
    exact (Nat.le_add_right _ _).trans_lt hadditions

theorem length_gather_le {β : Type} {contribution : Session → Call → List β} {most : Call → Nat}
    (h : ∀ session call, (contribution session call).length ≤ most call) (session : Session)
    (calls : List Call) :
    (session.gather contribution calls).length ≤ (calls.map most).sum := by
  induction calls generalizing session with
  | nil => exact Nat.le_refl 0
  | cons call calls ih =>
    rw [Session.gather, List.length_append, List.map_cons, List.sum_cons]
    exact Nat.add_le_add (h session call) (ih _)

/-- **Few calls with few signatures** do not bring the counters round. -/
theorem inBounds_of_sum_lt
    (h : (history.map fun call => call.offered.length + 1).sum < 2 ^ 32 - 1) :
    session.InBounds history where
  handles := by
    refine (length_gather_le (fun session call => ?_) session history).trans_lt h
    rw [Call.handlesGiven]
    split
    · exact (Option.length_toList_le).trans (Nat.le_add_left 1 _)
    · exact Nat.zero_le _
  additions handle := by
    refine (length_gather_le (fun session call => ?_) session history).trans_lt h
    rw [Session.added]
    split
    · exact Nat.le_succ _
    · exact Nat.zero_le _

section InBounds

variable (h : (Session.start ambient).InBounds history)

include h

/-- **No handle is given twice.** -/
theorem nodup_handlesGiven : ∃ handles : List Handle, handles.Nodup
    ∧ (Session.start ambient).handlesGiven history = handles.map .ofWord := by
  have hroom := h.handles
  refine ⟨_, ?_, (tally_after ambient history (by omega)).2⟩
  exact (pairwise_wordsFrom (by change 1 + _ ≤ _; omega)).imp UInt32.ne_of_lt

/-- **The numbers answered under a handle increase.** -/
theorem pairwise_numbersGiven (handle : Handle) : ∃ ids : List DocumentId, ids.Pairwise (· < ·)
    ∧ (Session.start ambient).numbersGiven handle history = ids.map .ofWord := by
  have hroom := h.handles
  have hadditions := h.additions handle
  obtain ⟨ids, hsublist, hids⟩ :=
    (tally_after ambient history (by omega)).1.numbers handle
  refine ⟨ids, (pairwise_wordsFrom ?_).sublist hsublist, hids⟩
  change 0 + _ ≤ _
  omega

/-- **Every stored number lies below the counter** of its handle. -/
theorem lt_nextId_of_stored {index : Index} {id : DocumentId} {signature : Signature}
    (hindex : ((Session.start ambient).after history).indexes[handle]? = some index)
    (hstored : index.signature? id = some signature) :
    ∃ next, ((Session.start ambient).after history).nextIds[handle]? = some next ∧ id < next := by
  have hroom := h.handles
  have hadditions := h.additions handle
  have htally := (tally_after ambient history (by omega)).1
  obtain ⟨_, next, hkeeps⟩ := (paired_after ambient history).exists_keeps
    (mem_table_iff.mpr ⟨index, hindex⟩)
  refine ⟨next, hkeeps.nextIds, ?_⟩
  rw [htally.next hkeeps.nextIds]
  exact (mem_wordsFrom_zero (by omega)).mp (htally.stored hindex hstored)

/-- A handle in the table was given. -/
theorem mem_handlesGiven (hmem : handle ∈ ((Session.start ambient).after history).indexes) :
    .ofWord handle ∈ (Session.start ambient).handlesGiven history := by
  have hroom := h.handles
  obtain ⟨htally, hgiven⟩ := tally_after ambient history (by omega)
  rw [hgiven]
  exact List.mem_map_of_mem (htally.given hmem)

end InBounds

/-! ## Stored signatures stay -/

/-- **One call replaces nothing** that is stored under a handle. -/
theorem Tally.signature?_outcome {created : Nat} {added : Handle → Nat}
    {numbers : Handle → List Value} (h : Tally session created added numbers)
    (hpaired : session.Paired) (hcreated : created < 2 ^ 32) {call : Call}
    (hadded : added handle + (session.added call handle).length ≤ 2 ^ 32) {index index' : Index}
    {id : DocumentId} {signature : Signature} (hindex : session.indexes[handle]? = some index)
    (hstored : index.signature? id = some signature)
    (hindex' : (call.outcome session).session.indexes[handle]? = some index') :
    index'.signature? id = some signature := by
  have heffect := effect hpaired call
  generalize call.outcome session = outcome at heffect hindex'
  have hsame : ∀ {other}, other = some index → other = some index' →
      index'.signature? id = some signature := by
    rintro _ rfl heq
    rwa [← Option.some.inj heq]
  cases heffect with
  | created split hoperation =>
    have hne : session.nextHandle ≠ handle := fun heq => h.nextHandle_notMem hcreated
      (heq ▸ h.given (mem_table_iff.mpr ⟨index, hindex⟩))
    change (session.indexes.insert _ _)[handle]? = _ at hindex'
    rw [Std.HashMap.getElem?_insert, if_neg fun heq => hne (beq_iff_eq.mp heq)] at hindex'
    exact hsame hindex hindex'
  | destroyed other hgives => exact hsame hindex (getElem?_of_erase hindex').2
  | added other index₀ next after answer hoperation hhandle hkeeps hadds hnumbers =>
    by_cases heq : handle = other
    · subst heq
      obtain rfl := Option.some.inj (hindex.symm.trans hkeeps.indexes)
      obtain rfl := h.next hkeeps.nextIds
      rw [added_eq hhandle hkeeps.mem_indexes, if_pos rfl] at hadded
      obtain rfl := Option.some.inj ((hadds.keeps hkeeps).indexes.symm.trans hindex')
      rw [Index.signature?_insertFrom_of_notMem, hstored]
      exact disjoint_wordsFrom hadded (h.stored hindex hstored)
    · exact hsame hindex ((hadds.elsewhere.indexes handle heq).trans hindex')
  | idle after answer hambient hindexes hnextIds hnextHandle hidle =>
    exact hsame hindex (hindexes ▸ hindex')

/-- **What is stored under a handle stays** as long as the handle does. -/
theorem signature?_after {earlier later : List Call}
    (h : (Session.start ambient).InBounds (earlier ++ later)) {index index' : Index}
    {id : DocumentId} {signature : Signature}
    (hindex : ((Session.start ambient).after earlier).indexes[handle]? = some index)
    (hstored : index.signature? id = some signature)
    (hindex' : ((Session.start ambient).after (earlier ++ later)).indexes[handle]? = some index') :
    index'.signature? id = some signature := by
  induction later using List.reverseRecOn generalizing index' with
  | nil =>
    rw [List.append_nil, hindex] at hindex'
    rwa [← Option.some.inj hindex']
  | append_singleton later call ih =>
    rw [← List.append_assoc] at h hindex'
    have hbounds := h.of_append
    have hroom := hbounds.handles
    have hpaired := paired_after ambient (earlier ++ later)
    rw [Session.after_concat] at hindex'
    have hmem : handle ∈ ((Session.start ambient).after (earlier ++ later)).indexes := by
      rcases ((effect hpaired call).mem_indexes_iff handle).mp
        (mem_table_iff.mpr ⟨index', hindex'⟩) with hgiven | ⟨hmem, -⟩
      · exfalso
        obtain ⟨handles, hnodup, heq⟩ := nodup_handlesGiven h
        have hnodup' := hnodup.map Value.ofWord_injective
        rw [← heq, Session.handlesGiven, Session.gather_concat] at hnodup'
        refine List.disjoint_of_nodup_append hnodup' ?_ hgiven
        have hearlier := mem_handlesGiven hbounds.of_append (mem_table_iff.mpr ⟨index, hindex⟩)
        rw [Session.gather_append]
        exact List.mem_append_left _ hearlier
      · exact hmem
    obtain ⟨middle, hmiddle⟩ := mem_table_iff.mp hmem
    have hadditions := h.additions handle
    rw [Session.additions, Session.gather_concat, List.length_append] at hadditions
    exact (tally_after ambient (earlier ++ later) (by omega)).1.signature?_outcome hpaired
      (by omega) (hadditions.le.trans (by omega)) hmiddle (ih hbounds hmiddle) hindex'

/-! ## Sessions that differ under one handle -/

/-- **Sessions that differ under one handle go on to do so**, whatever is called. -/
theorem AgreeOff.after (h : AgreeOff handle s t) (hs : s.Paired) (ht : t.Paired)
    (calls : List Call) : AgreeOff handle (s.after calls) (t.after calls) := by
  induction calls generalizing s t with
  | nil => exact h
  | cons call calls ih =>
    refine ih ?_ ((effect hs call).paired hs) ((effect ht call).paired ht)
    by_cases hhandle : call.handle? = some handle
    · exact (((effect hs call).agreeOff hhandle).symm.trans h).trans
        ((effect ht call).agreeOff hhandle)
    · exact (h.outcome hhandle).1

/-! ## The laws together -/

/-- **The laws of the handle table** of a session after a sequence of calls. -/
structure Orderly (session : Session) (history : List Call) : Prop where
  same_handles : ∀ handle : Handle,
    handle ∈ (session.after history).indexes ↔ handle ∈ (session.after history).nextIds
  live_handles : ∀ handle : Handle,
    handle ∈ (session.after history).indexes ↔ session.Live history handle
  distinct_handles : ∃ handles : List Handle,
    handles.Nodup ∧ session.handlesGiven history = handles.map .ofWord
  /-- A handle that was answered and given up is not answered again and stays unknown. -/
  never_back : ∀ before call since handle, history = before ++ call :: since →
    .ofWord handle ∈ session.handlesGiven before → call.GivesUp handle →
    .ofWord handle ∉ (session.after (before ++ [call])).handlesGiven since
      ∧ handle ∉ (session.after history).indexes
  increasing_numbers : ∀ handle, ∃ ids : List DocumentId,
    ids.Pairwise (· < ·) ∧ session.numbersGiven handle history = ids.map .ofWord
  stored_below : ∀ (handle : Handle) (index : Index) id signature,
    (session.after history).indexes[handle]? = some index →
    index.signature? id = some signature →
    ∃ next, (session.after history).nextIds[handle]? = some next ∧ id < next
  never_replaced : ∀ earlier later, history = earlier ++ later →
    ∀ (handle : Handle) (index index' : Index) id signature,
      (session.after earlier).indexes[handle]? = some index →
      (session.after history).indexes[handle]? = some index' →
      index.signature? id = some signature → index'.signature? id = some signature
  /-- Without a call that names a handle, later calls on other handles answer the same. -/
  no_interference : ∀ before call since handle, history = before ++ call :: since →
    call.handle? = some handle → ∀ (asked : Call) other, asked.handle? = some other →
    other ≠ handle → (asked.outcome (session.after history)).answer
      = (asked.outcome (session.after (before ++ since))).answer
  refused : ∀ (call : Call) handle, call.handle? = some handle → call.operation ≠ .destroy →
    ¬session.Live history handle →
    ∃ error, call.outcome (session.after history)
      = (session.after history).unchanged (.error error)

/-- Handles given before and after a call are different. -/
theorem notMem_handlesGiven_since {before since : List Call} {call : Call}
    (h : (Session.start ambient).InBounds (before ++ call :: since))
    (hgiven : .ofWord handle ∈ (Session.start ambient).handlesGiven before) :
    .ofWord handle ∉ ((Session.start ambient).after (before ++ [call])).handlesGiven since := by
  obtain ⟨handles, hnodup, heq⟩ := nodup_handlesGiven h
  have hnodup' := hnodup.map Value.ofWord_injective
  rw [← heq, List.append_cons, Session.handlesGiven, Session.gather_append] at hnodup'
  refine List.disjoint_of_nodup_append hnodup' ?_
  rw [Session.gather_append]
  exact List.mem_append_left _ hgiven

/-- **The handle table is orderly** after every sequence of calls, valid or failing, that gives
fewer than `2 ^ 32 - 1` handles and adds fewer than `2 ^ 32 - 1` signatures under each — both
tables have the handles that are live; handles are answered once and never again; the numbers
answered under a handle increase, lie above all stored ones, and no stored signature is ever
replaced; a call that names one handle changes no answer on another; and a call on a handle that is
not live fails and changes nothing, unless it gives the handle up. -/
theorem orderly_of_inBounds (ambient : Ambient) (history : List Call)
    (h : (Session.start ambient).InBounds history) : Orderly (.start ambient) history where
  same_handles := paired_after ambient history
  live_handles := mem_indexes_iff_live ambient history
  distinct_handles := nodup_handlesGiven h
  never_back := by
    rintro before call since handle rfl hgiven hgives
    have hnew := notMem_handlesGiven_since h hgiven
    refine ⟨hnew, fun hmem => ?_⟩
    rw [List.append_cons, Session.after_append] at hmem
    rcases mem_indexes_of_after (paired_after ambient _) hmem with hbefore | hsince
    · rw [Session.after_concat] at hbefore
      rcases ((effect (paired_after ambient before) call).mem_indexes_iff handle).mp hbefore with
        hcreated | ⟨-, hkept⟩
      · rw [Call.handlesGiven, hgives.1] at hcreated
        exact absurd hcreated List.not_mem_nil
      · exact hkept hgives
    · exact hnew hsince
  increasing_numbers := pairwise_numbersGiven h
  stored_below handle index id signature := lt_nextId_of_stored h
  never_replaced := by
    rintro earlier later rfl handle index index' id signature hindex hindex' hstored
    exact signature?_after h hindex hstored hindex'
  no_interference := by
    rintro before call since handle rfl hhandle asked other hother hne
    have hpaired := paired_after ambient before
    have hcall := effect hpaired call
    have hagree := ((hcall.agreeOff hhandle).symm.after (hcall.paired hpaired) hpaired since)
    rw [Session.after_append, Session.after_append]
    refine (hagree.outcome fun hasked => hne ?_).2
    exact Option.some.inj (hother.symm.trans hasked)
  refused call handle hhandle hoperation hlive :=
    outcome_of_unknown hhandle hoperation
      (mt (mem_indexes_iff_live ambient history handle).mp hlive)

/-- An index that is made, filled and given up, and a call that comes too late. -/
theorem orderly_of_four_calls :
    let ambient : Ambient := ⟨1, .info⟩
    let history : List Call :=
      [⟨.createIndex, ⟨[]⟩⟩, ⟨.addBatch, ⟨[.ofWord 1, .list [.buffer [], .buffer [7]]]⟩⟩,
        ⟨.destroy, ⟨[.ofWord 1]⟩⟩, ⟨.add, ⟨[.ofWord 1, .buffer []]⟩⟩]
    (Session.start ambient).InBounds history ∧ Orderly (.start ambient) history := by
  intro ambient history
  have hbounds : (Session.start ambient).InBounds history := inBounds_of_sum_lt (by decide)
  exact ⟨hbounds, orderly_of_inBounds ambient history hbounds⟩

end CodeClones.Script
