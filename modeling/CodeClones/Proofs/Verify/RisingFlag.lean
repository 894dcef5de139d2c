import CodeClones.Proofs.Verify.Interrupted

/-!
# Proofs/Verify/RisingFlag — what a finished update counts when the flag goes up

The flag may go up at any reading, and then stays up.  A pair has its turn when the flag is read for
it, and is verified in time if that reading is clear.  An update is finished by the bounds of its
batch alone: the flag was clear before the last batch, hence all through the batches before it, but
within the last batch it may go up.  So a finished update is truthful exactly if no pair whose turn
comes too late would have been verified (`finished_truthful_iff`).
-/

namespace CodeClones

open Log Parallel

/-- **A flag that stays up** once it is. -/
def Rising (outside : Nat → Bool) : Prop :=
  ∀ ⦃n m : Nat⦄, n ≤ m → outside n = true → outside m = true

theorem Rising.not_clear {outside : Nat → Bool} (h : Rising outside) {n m : Nat} (hle : n ≤ m)
    (hset : outside n = true) : ¬outside m = false :=
  fun hclear => Bool.false_ne_true (hclear.symm.trans (h hle hset))

/-- A flag that goes up at some reading. -/
theorem rising_from (first : Nat) : Rising fun reading => decide (first ≤ reading) :=
  fun _ _ hle hset => decide_eq_true ((of_decide_eq_true hset).trans hle)

namespace Signal

/-- The flag after `n` readings, if the run itself has not raised it. -/
def after (outside : Nat → Bool) (n : Nat) : Signal where
  outside := outside
  readings := n

variable {outside : Nat → Bool} {n : Nat}

theorem isSet_after : (after outside n).isSet = outside n := rfl

theorem afterReading_after : (after outside n).afterReading = after outside (n + 1) := rfl

end Signal

/-! ## Turns -/

section InTime

variable {α β : Type} (outside : Nat → Bool) (verify? : α → Option β) (n : Nat)

/-- **What is verified in time** — entries have their turns at the readings from `n` on, and an
entry is skipped if its reading shows the flag set. -/
def inTime (entries : List α) : List β :=
  (entries.zipIdx n).filterMap fun turn => if outside turn.2 then none else verify? turn.1

variable {outside n} in
theorem inTime_cons_of_clear (hclear : outside n = false) (a : α) (entries : List α) :
    inTime outside verify? n (a :: entries)
      = (verify? a).toList ++ inTime outside verify? (n + 1) entries := by
  rw [inTime, List.zipIdx_cons, List.filterMap_cons, hclear, if_neg Bool.false_ne_true]
  cases verify? a <;> rfl

variable {outside n} in
theorem inTime_cons_of_set (hset : outside n = true) (a : α) (entries : List α) :
    inTime outside verify? n (a :: entries) = inTime outside verify? (n + 1) entries := by
  rw [inTime, List.zipIdx_cons, List.filterMap_cons, hset, if_pos rfl]
  rfl

/-- Nothing is verified once the flag is set. -/
theorem inTime_of_set {outside : Nat → Bool} (hrising : Rising outside) {n : Nat}
    (hset : outside n = true) (entries : List α) : inTime outside verify? n entries = [] := by
  induction entries generalizing n with
  | nil => rfl
  | cons a entries ih =>
    rw [inTime_cons_of_set verify? hset]
    exact ih (hrising n.le_succ hset)

/-- Entries are in time until the flag goes up. -/
theorem inTime_rising_from (first n : Nat) (entries : List α) :
    inTime (fun reading => decide (first ≤ reading)) verify? n entries
      = (entries.take (first - n)).filterMap verify? := by
  induction entries generalizing n with
  | nil => rw [List.take_nil]; rfl
  | cons a entries ih =>
    rcases Nat.lt_or_ge n first with hlt | hle
    · have hleft : first - n = first - (n + 1) + 1 := by omega
      rw [inTime_cons_of_clear verify? (decide_eq_false (Nat.not_le.mpr hlt)), ih, hleft,
        List.take_succ_cons, List.filterMap_cons]
      cases verify? a <;> rfl
    · rw [inTime_of_set verify? (rising_from first) (decide_eq_true hle), Nat.sub_eq_zero_of_le hle]
      rfl

/-- Entries as turns. -/
theorem filterMap_zipIdx (entries : List α) :
    ((entries.zipIdx n).filterMap fun turn => verify? turn.1) = entries.filterMap verify? := by
  change (entries.zipIdx n).filterMap (verify? ∘ Prod.fst) = _
  rw [← List.filterMap_map, List.zipIdx_map_fst]

theorem inTime_eq_filterMap_filter (entries : List α) :
    inTime outside verify? n entries
      = ((entries.zipIdx n).filter fun turn => !outside turn.2).filterMap
        fun turn => verify? turn.1 := by
  rw [inTime, List.filterMap_filter]
  refine List.filterMap_congr fun turn _ => ?_
  cases outside turn.2 <;> rfl

/-- **What comes too late** — entries that are skipped and would have been verified. -/
def tooLate (entries : List α) : List β :=
  ((entries.zipIdx n).filter fun turn => outside turn.2).filterMap fun turn => verify? turn.1

/-- What is verified at all comes in time or too late. -/
theorem length_tooLate_add (entries : List α) :
    (tooLate outside verify? n entries).length + (inTime outside verify? n entries).length
      = (entries.filterMap verify?).length := by
  rw [tooLate, inTime_eq_filterMap_filter, ← List.length_append, ← List.filterMap_append,
    ← filterMap_zipIdx verify? n]
  exact ((List.filter_append_perm _ _).filterMap _).length_eq

/-- **Everything is verified in time** exactly if what is skipped would not be verified anyway. -/
theorem length_inTime_eq_iff (entries : List α) :
    (inTime outside verify? n entries).length = (entries.filterMap verify?).length
      ↔ ∀ turn ∈ entries.zipIdx n, outside turn.2 = true → verify? turn.1 = none := by
  have hlate : (inTime outside verify? n entries).length = (entries.filterMap verify?).length
      ↔ tooLate outside verify? n entries = [] := by
    rw [← length_tooLate_add outside verify? n entries, ← List.length_eq_zero_iff]
    omega
  rw [hlate, tooLate, List.filterMap_eq_nil_iff]
  simp only [List.mem_filter, and_imp]

/-- **Nothing comes too late** if the reading after the last one is clear. -/
theorem length_inTime_of_clear {outside : Nat → Bool} (hrising : Rising outside) {n : Nat}
    {entries : List α} (hclear : outside (n + entries.length) = false) :
    (inTime outside verify? n entries).length = (entries.filterMap verify?).length := by
  refine (length_inTime_eq_iff outside verify? n entries).mpr fun turn hturn hset => ?_
  have hlt := List.snd_lt_of_mem_zipIdx hturn
  exact absurd hclear (hrising.not_clear (by omega) hset)

end InTime

/-! ## One batch -/

namespace SpreadVerifier

open Signal

variable (verifier : Verifier) (documents : DocumentTable) {outside : Nat → Bool}

/-- One worker verifies what has its turn in time; unless it has seen the flag, it has read it once
for each pair. -/
theorem verifyUntil_of_rising (hrising : Rising outside) (n : Nat) (pairs : List DocumentPair) :
    ∃ m, verifyUntil verifier documents (after outside n) pairs
        = ⟨inTime outside (verifier.verify? documents) n pairs, after outside m⟩
      ∧ (outside m = false → m = n + pairs.length) := by
  induction pairs generalizing n with
  | nil => exact ⟨n, rfl, fun _ => rfl⟩
  | cons pair pairs ih =>
    cases hflag : outside n with
    | true =>
      refine ⟨n + 1, ?_, fun hclear => absurd hclear (hrising.not_clear n.le_succ hflag)⟩
      rw [verifyUntil, isSet_after, hflag, if_pos rfl, inTime_of_set _ hrising hflag,
        afterReading_after]
    | false =>
      obtain ⟨m, hlater, hreadings⟩ := ih (n + 1)
      refine ⟨m, ?_, fun hclear => (hreadings hclear).trans (Nat.succ_add_eq_add_succ _ _)⟩
      rw [verifyUntil, isSet_after, hflag, if_neg Bool.false_ne_true, afterReading_after, hlater,
        inTime_cons_of_clear _ hflag]
      cases verifier.verify? documents pair <;> rfl

/-- Several workers verify what has its turn in time; they read the flag at each step. -/
theorem verifySteps_of_after (n : Nat) (pairs : Array DocumentPair) (steps : List (Nat × Nat))
    (hsteps : ∀ step ∈ steps, step.2 < pairs.size) :
    let answer := verifySteps verifier documents pairs (after outside n) steps
    answer.1.map Prod.snd = inTime outside (verifier.verify? documents) n
        ((steps.map Prod.snd).filterMap fun item => pairs[item]?)
      ∧ answer.2 = after outside (n + steps.length) := by
  induction steps generalizing n with
  | nil => exact ⟨rfl, rfl⟩
  | cons step steps ih =>
    obtain ⟨worker, item⟩ := step
    rw [List.forall_mem_cons] at hsteps
    obtain ⟨hfound, hsignal⟩ := ih (n + 1) hsteps.2
    have hreadings : n + (steps.length + 1) = n + 1 + steps.length := by omega
    have hitem : pairs[item]? = some pairs[item] := Array.getElem?_eq_getElem hsteps.1
    rw [verifySteps, List.map_cons, List.filterMap_cons_some hitem, List.length_cons, hreadings,
      isSet_after, afterReading_after]
    cases hflag : outside n with
    | true =>
      rw [if_pos rfl, inTime_cons_of_set _ hflag]
      exact ⟨hfound, hsignal⟩
    | false =>
      rw [if_neg Bool.false_ne_true, hitem, Option.bind_some, inTime_cons_of_clear _ hflag]
      cases verifier.verify? documents pairs[item] with
      | none => exact ⟨hfound, hsignal⟩
      | some verified => exact ⟨congrArg (verified :: ·) hfound, hsignal⟩

/-- What is found is found by one of the workers. -/
theorem exists_step_of_mem_verifySteps (pairs : Array DocumentPair) (signal : Signal)
    (steps : List (Nat × Nat)) :
    ∀ entry ∈ (verifySteps verifier documents pairs signal steps).1,
      ∃ step ∈ steps, step.1 = entry.1 := by
  induction steps generalizing signal with
  | nil => exact fun _ hentry => absurd hentry List.not_mem_nil
  | cons step steps ih =>
    intro entry hentry
    have hlater := ih signal.afterReading entry
    grind [verifySteps]

/-- **The pairs of a batch in the order of their turns.** -/
def turns (spread : SpreadVerifier) (schedule : Schedule) (pairs : List DocumentPair) :
    List DocumentPair :=
  if spread.gate.spreadsPairs pairs.length then
    (schedule.pairs pairs.length).order.filterMap fun item => pairs.toArray[item]?
  else pairs

theorem perm_turns (spread : SpreadVerifier) (schedule : Schedule) (pairs : List DocumentPair) :
    (spread.turns schedule pairs).Perm pairs := by
  rw [turns]
  split
  · exact (schedule.pairs pairs.length).perm_filterMap_order pairs.toArray rfl
  · exact List.Perm.refl pairs

/-- A batch after which the flag is clear is verified in full. -/
theorem length_inTime_turns {β : Type} (hrising : Rising outside) (spread : SpreadVerifier)
    (schedule : Schedule) (verify? : DocumentPair → Option β) {n : Nat} {pairs : List DocumentPair}
    (hclear : outside (n + pairs.length) = false) :
    (inTime outside verify? n (spread.turns schedule pairs)).length
      = (pairs.filterMap verify?).length := by
  have hturns := spread.perm_turns schedule pairs
  rw [← hturns.length_eq] at hclear
  rw [length_inTime_of_clear verify? hrising hclear, (hturns.filterMap verify?).length_eq]

/-- **A batch verifies what has its turn in time**; unless the flag is seen, it is read once for
each pair. -/
theorem run_of_rising (spread : SpreadVerifier) (schedule : Schedule) (hrising : Rising outside)
    (n : Nat) (pairs : List DocumentPair) :
    let verified := (spread.run schedule documents pairs (after outside n)).value
    verified.pairs.length = (inTime outside (spread.verifier.verify? documents) n
        (spread.turns schedule pairs)).length
      ∧ ∃ m, verified.signal = after outside m ∧ (outside m = false → m = n + pairs.length) := by
  rw [run, turns]
  split
  · let load := schedule.pairs pairs.length
    have hitems : ∀ step ∈ load.steps, step.2 < pairs.toArray.size := fun step hstep =>
      List.mem_range.mp (load.handled.mem_iff.mp (List.mem_map_of_mem hstep))
    obtain ⟨hfound, hsignal⟩ :=
      verifySteps_of_after spread.verifier documents n pairs.toArray load.steps hitems
    have hmerge := load.perm_merge fun entry hentry => by
      obtain ⟨step, hstep, hworker⟩ := exists_step_of_mem_verifySteps spread.verifier documents
        pairs.toArray (after outside n) load.steps entry hentry
      exact hworker ▸ load.employed step hstep
    refine ⟨?_, _, hsignal, fun _ => ?_⟩
    · exact ((List.mergeSort_perm _ _).trans hmerge).length_eq.trans (congrArg _ hfound)
    · simpa using load.handled.length_eq
  · obtain ⟨m, hrun, hreadings⟩ :=
      verifyUntil_of_rising spread.verifier documents hrising n pairs
    rw [hrun]
    exact ⟨(List.mergeSort_perm _ _).length_eq, m, rfl, hreadings⟩

end SpreadVerifier

/-! ## All batches -/

/-- A call after which the flag is clear is only heard. -/
theorem Hearing.call_of_not_isSet {α : Type} {listener : Listener α} {hearing : Hearing α} {a : α}
    (h : (hearing.call listener a).1.signal.isSet = false) :
    (hearing.call listener a).1 = hearing.hear a := by
  refine hearing.call_of_waits a (Bool.eq_false_iff.mpr fun hcancels => ?_)
  rw [call, hcancels] at h
  exact Bool.false_ne_true (h.symm.trans (Signal.isSet_of_raised rfl))

namespace Batching

open Signal

variable {documents : DocumentTable} {batch : Batching} {plan : BatchPlan}
  {listener : Listener Progress} {outside : Nat → Bool} (hrising : Rising outside)

variable (documents batch plan listener) in
include hrising in
/-- **One batch of an updating run** whose flag is clear when it begins. -/
theorem updatesFrom_cons_of_clear {n : Nat} (hclear : outside n = false)
    (total processed delivered : Nat) (heard : Array Progress) (pairs : List DocumentPair)
    (parts : List (List DocumentPair)) :
    ∃ (update : Progress) (m : Nat),
      update.finished = (processed + pairs.length == total)
      ∧ update.verified = delivered + (inTime outside (batch.spread.verifier.verify? documents)
          (n + 1) (batch.spread.turns (plan processed) pairs)).length
      ∧ (outside m = false → m = n + 1 + pairs.length)
      ∧ let told := Hearing.call listener ⟨heard, after outside m⟩ update
        (batch.updatesFrom plan documents listener total processed delivered
            ⟨heard, after outside n⟩ (pairs :: parts)).value
          = if told.2 then (batch.updatesFrom plan documents listener total
              (processed + pairs.length) update.verified told.1 parts).value
            else ⟨update.verified, told.1⟩ := by
  obtain ⟨hcount, m, hsignal, hreadings⟩ := SpreadVerifier.run_of_rising documents batch.spread
    (plan processed) hrising (n + 1) pairs
  let fresh :=
    (batch.spread.run (plan processed) documents pairs (after outside (n + 1))).value.pairs
  refine ⟨{ processed := processed + pairs.length, total := total,
            verified := delivered + fresh.length, fresh := fresh,
            finished := processed + pairs.length == total }, m, rfl,
    congrArg (delivered + ·) hcount, hreadings, ?_⟩
  rw [updatesFrom, if_neg (by rw [isSet_after, hclear]; exact Bool.false_ne_true)]
  dsimp only [Logged.value_bind, afterReading_after]
  rw [← hsignal]
  split <;> rfl

/-- No update among them is finished. -/
def NoneFinished (heard : Array Progress) : Prop :=
  ∀ update ∈ heard, update.finished = false

theorem NoneFinished.not_mem {heard : Array Progress} (h : NoneFinished heard) {update : Progress}
    (hfinished : update.finished = true) : update ∉ heard := fun hmem =>
  Bool.false_ne_true ((h update hmem).symm.trans hfinished)

theorem NoneFinished.push {heard : Array Progress} (h : NoneFinished heard) {update : Progress}
    (hupdate : update.finished = false) : NoneFinished (heard.push update) := fun _ hmem =>
  (Array.mem_push.mp hmem).elim (h _) fun heq => heq ▸ hupdate

section Finished

variable {total processed delivered n : Nat} {heard : Array Progress} (hheard : NoneFinished heard)
  {part : List DocumentPair} {parts : List (List DocumentPair)} {update : Progress}
  (hupdate : update ∈ (batch.updatesFrom plan documents listener total processed delivered
    ⟨heard, after outside n⟩ (part :: parts)).value.hearing.heard)
  (hfinished : update.finished = true)

include hheard hupdate hfinished

/-- Before a finished update the flag is clear. -/
theorem clear_of_finished : outside n = false := by
  refine Bool.eq_false_iff.mpr fun hset => hheard.not_mem hfinished ?_
  have hset : (⟨heard, after outside n⟩ : Hearing Progress).signal.isSet = true := hset
  rwa [(batch.updatesFrom_of_isSet plan listener total processed delivered hset _).2] at hupdate

include hrising

/-- In the last batch a finished update counts what has its turn in time. -/
theorem verified_of_finished_last (hparts : parts = []) :
    update.verified = delivered + (inTime outside (batch.spread.verifier.verify? documents)
      (n + 1) (batch.spread.turns (plan processed) part)).length := by
  subst hparts
  obtain ⟨told, m, -, hverified, -, hrun⟩ := updatesFrom_cons_of_clear documents batch plan
    listener hrising (clear_of_finished hheard hupdate hfinished) total processed delivered heard
    part []
  have htold : update ∈ heard.push told := by
    rw [hrun] at hupdate
    split at hupdate <;> exact hupdate
  obtain rfl := (Array.mem_push.mp htold).resolve_left (hheard.not_mem hfinished)
  exact hverified

/-- Before a later batch with a finished update, a batch is verified in full. -/
theorem exists_told_of_finished_later (hlater : processed + part.length ≠ total) :
    ∃ told : Progress, told.finished = false
      ∧ told.verified
        = delivered + (part.filterMap (batch.spread.verifier.verify? documents)).length
      ∧ update ∈ (batch.updatesFrom plan documents listener total (processed + part.length)
        told.verified ⟨heard.push told, after outside (n + 1 + part.length)⟩
        parts).value.hearing.heard := by
  obtain ⟨told, m, hfinal, hverified, hreadings, hrun⟩ := updatesFrom_cons_of_clear documents batch
    plan listener hrising (clear_of_finished hheard hupdate hfinished) total processed delivered
    heard part parts
  have hunfinished : told.finished = false := hfinal.trans (beq_eq_false_iff_ne.mpr hlater)
  rw [hrun] at hupdate
  by_cases hended : (Hearing.call listener ⟨heard, after outside m⟩ told).2 = false
      ∨ (Hearing.call listener ⟨heard, after outside m⟩ told).1.signal.isSet = true
  · rw [(batch.updatesFrom_of_ended plan listener total (processed + part.length) told.verified
      hended parts).2] at hupdate
    exact absurd hupdate ((hheard.push hunfinished).not_mem hfinished)
  · -- the flag is still clear, so every pair of this batch had its turn in time
    rw [not_or, Bool.not_eq_false, Bool.not_eq_true] at hended
    obtain ⟨hmore, hflag⟩ := hended
    have hcall := Hearing.call_of_not_isSet hflag
    rw [hcall] at hflag
    obtain rfl := hreadings hflag
    rw [if_pos hmore, hcall] at hupdate
    exact ⟨told, hunfinished, hverified.trans (congrArg (delivered + ·)
      (SpreadVerifier.length_inTime_turns hrising batch.spread (plan processed) _ hflag)), hupdate⟩

end Finished

include hrising in
/-- **What a finished update counts**: all batches before the last one in full, and in the last one
what has its turn in time. -/
theorem verified_of_finished {last : List DocumentPair} (hlast : last ≠ [])
    (before : List (List DocumentPair)) {total processed delivered n : Nat}
    {heard : Array Progress} (hheard : NoneFinished heard)
    (htotal : total = processed + before.flatten.length + last.length) {update : Progress}
    (hupdate : update ∈ (batch.updatesFrom plan documents listener total processed delivered
      ⟨heard, after outside n⟩ (before ++ [last])).value.hearing.heard)
    (hfinished : update.finished = true) :
    update.verified
      = delivered + (before.flatten.filterMap (batch.spread.verifier.verify? documents)).length
        + (inTime outside (batch.spread.verifier.verify? documents)
          (n + before.flatten.length + before.length + 1)
          (batch.spread.turns (plan (processed + before.flatten.length)) last)).length := by
  induction before generalizing processed delivered n heard with
  | nil => exact verified_of_finished_last hrising hheard hupdate hfinished rfl
  | cons part before ih =>
    have hpositive : 0 < last.length := List.length_pos_of_ne_nil hlast
    rw [List.flatten_cons, List.length_append] at htotal
    obtain ⟨told, hunfinished, hverified, hlater⟩ := exists_told_of_finished_later hrising hheard
      hupdate hfinished (by omega)
    have hcount := ih (hheard.push hunfinished) (by omega) hlater
    have hreading : n + (part.length + before.flatten.length) + (before.length + 1) + 1
        = n + 1 + part.length + before.flatten.length + before.length + 1 := by omega
    rw [hcount, hverified, List.flatten_cons, List.filterMap_append, List.length_append,
      List.length_append, List.length_cons, hreading, Nat.add_assoc delivered,
      Nat.add_assoc processed]

variable (documents batch plan listener) in
include hrising in
/-- A run of one batch tells one update, which is finished. -/
theorem heard_updates_of_one_batch (hclear : outside 0 = false) {pairs : List DocumentPair}
    (hpairs : pairs ≠ []) (hlength : pairs.length ≤ batch.batchSize) :
    ∃ update : Progress, update.finished = true
      ∧ update.verified = (inTime outside (batch.spread.verifier.verify? documents) 1
        (batch.spread.turns (plan 0) pairs)).length
      ∧ (batch.updates plan documents listener { outside := outside } pairs).value.hearing.heard
        = #[update] := by
  obtain ⟨update, m, hfinished, hverified, -, hrun⟩ := updatesFrom_cons_of_clear documents batch
    plan listener hrising hclear pairs.length 0 0 #[] pairs []
  refine ⟨update, by simp [hfinished], by simpa using hverified, ?_⟩
  rw [updates, if_neg (mt List.isEmpty_iff.mp hpairs), batches_of_length_le hpairs hlength]
  change (batch.updatesFrom plan documents listener pairs.length 0 0 ⟨#[], after outside 0⟩
    [pairs]).value.hearing.heard = _
  rw [hrun]
  split <;> rfl

/-- **When a finished update is truthful** — for all candidates, documents and sizes of batches,
however the batches are shared out, and for every listener and every flag that stays up once it is.
A finished update counts as many pairs as verification in order finds exactly if, of the last batch,
no pair that would be verified has its turn when the flag is up already. -/
theorem finished_truthful_iff (table : DocumentTable) (minimum : Float) (batchSize : Nat)
    (gate : Gate) (plan : BatchPlan) (listener : Listener Progress) {outside : Nat → Bool}
    (hrising : Rising outside) {pairs last : List DocumentPair} {before : List (List DocumentPair)}
    (hparts : batches (max 1 batchSize) pairs = before ++ [last]) {update : Progress}
    (hupdate : update ∈ ((forDelivery minimum batchSize gate).updates plan table listener
      { outside := outside } pairs).value.hearing.heard) (hfinished : update.finished = true) :
    let verifier := Verifier.ofMinimum minimum
    let spread := (forDelivery minimum batchSize gate).spread
    let turns := spread.turns (plan before.flatten.length) last
    let start := before.flatten.length + before.length + 1
    update.verified = (verifier.verifyAll table pairs).length
      ↔ ∀ turn ∈ turns.zipIdx start, outside turn.2 = true →
        verifier.verify? table turn.1 = none := by
  intro verifier spread turns start
  have hlast : last ≠ [] := ne_nil_of_mem_batches (hparts ▸ List.mem_append_right _ (by simp))
  have hpairs : pairs = before.flatten ++ last := by
    rw [← flatten_batches (max 1 batchSize) pairs, hparts, List.flatten_append,
      List.flatten_singleton]
  have hempty : ¬pairs.isEmpty = true := by
    rw [hpairs, List.isEmpty_iff, List.append_eq_nil_iff]
    exact fun h => hlast h.2
  rw [updates, if_neg hempty, show (forDelivery minimum batchSize gate).batchSize = max 1 batchSize
    from rfl, hparts] at hupdate
  have hunheard : NoneFinished #[] := fun _ h => absurd h (Array.not_mem_empty _)
  have hcount := verified_of_finished hrising hlast before hunheard
    (by rw [hpairs, List.length_append, Nat.zero_add]) hupdate hfinished
  have hall : (verifier.verifyAll table pairs).length
      = (before.flatten.filterMap (verifier.verify? table)).length
        + (turns.filterMap (verifier.verify? table)).length := by
    rw [(verifier.perm_verifyAll table pairs).length_eq, hpairs, List.filterMap_append,
      List.length_append, ((spread.perm_turns _ last).filterMap _).length_eq]
  rw [← length_inTime_eq_iff, hall, hcount]
  simp only [Nat.zero_add]
  exact Nat.add_left_cancel_iff

/-- The flag goes up after the last of two pairs. -/
theorem finished_truthful_of_late_flag :
    let table := DocumentTable.ofList Verifier.threeAlike
    let pairs : List DocumentPair := [⟨1, 2⟩, ⟨1, 3⟩]
    let outside : Nat → Bool := fun reading => decide (3 ≤ reading)
    let heard := ((forDelivery 0.5 2 Gate.closed).updates (fun _ => Schedule.dealt 1) table
      Listener.patient { outside := outside } pairs).value.hearing.heard
    Rising outside ∧ batches (max 1 2) pairs = [] ++ [pairs]
      ∧ ∃ update ∈ heard, update.finished = true
        ∧ update.verified = ((Verifier.ofMinimum 0.5).verifyAll table pairs).length := by
  intro table pairs outside heard
  have hparts : batches (max 1 2) pairs = [] ++ [pairs] :=
    batches_of_length_le (List.cons_ne_nil _ _) (by decide)
  obtain ⟨update, hfinished, -, hheard⟩ := heard_updates_of_one_batch table
    (forDelivery 0.5 2 Gate.closed) (fun _ => Schedule.dealt 1) Listener.patient (rising_from 3) rfl
    (List.cons_ne_nil _ _) (show pairs.length ≤ 2 by decide)
  have hupdate : update ∈ heard := (congrArg (update ∈ ·) hheard).mpr (Array.mem_singleton.mpr rfl)
  refine ⟨rising_from 3, hparts, update, hupdate, hfinished, ?_⟩
  refine (finished_truthful_iff table 0.5 2 Gate.closed _ _ (rising_from 3) hparts hupdate
    hfinished).mpr fun turn hturn hset => ?_
  have hturn : turn.2 < 3 := List.snd_lt_of_mem_zipIdx hturn
  exact absurd hturn (Nat.not_lt.mpr (of_decide_eq_true hset))

/-- The flag goes up between two pairs: one is verified, and yet the update is finished. -/
theorem finished_without_last_pair :
    let table := DocumentTable.ofList Verifier.threeAlike
    let pairs : List DocumentPair := [⟨1, 2⟩, ⟨1, 3⟩]
    let outside : Nat → Bool := fun reading => decide (2 ≤ reading)
    let heard := ((forDelivery 0.5 2 Gate.closed).updates (fun _ => Schedule.dealt 1) table
      Listener.patient { outside := outside } pairs).value.hearing.heard
    Rising outside
      ∧ (∃ update ∈ heard, update.finished = true ∧ update.verified = 1)
      ∧ ((Verifier.ofMinimum 0.5).verifyAll table pairs).length = 2 := by
  intro table pairs outside heard
  obtain ⟨update, hfinished, hverified, hheard⟩ := heard_updates_of_one_batch table
    (forDelivery 0.5 2 Gate.closed) (fun _ => Schedule.dealt 1) Listener.patient (rising_from 2) rfl
    (List.cons_ne_nil _ _) (show pairs.length ≤ 2 by decide)
  have hupdate : update ∈ heard := (congrArg (update ∈ ·) hheard).mpr (Array.mem_singleton.mpr rfl)
  refine ⟨rising_from 2, ⟨update, hupdate, hfinished, ?_⟩, ?_⟩
  · rw [hverified, inTime_rising_from]
    change (([⟨1, 2⟩] : List DocumentPair).filterMap
      ((Verifier.ofMinimum 0.5).verify? table)).length = 1
    exact Verifier.length_threeAlike (by decide)
  · exact ((Verifier.ofMinimum 0.5).perm_verifyAll table pairs).length_eq.trans
      (Verifier.length_threeAlike (by decide))

end Batching

end CodeClones
