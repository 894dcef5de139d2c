import CodeClones.Proofs.Parallel.Workload
import CodeClones.Proofs.Verify.Pair
import CodeClones.Verify.Spread

/-!
# Proofs/Verify/Spread — however verification is spread, the same pairs are verified

As long as nobody raises the flag, one worker verifies every pair in turn (`verifyUntil_of_silent`)
and several workers verify the pairs whose turn comes (`verifySteps_of_silent`).  Joining the lists
of the workers only changes the order, so `run_of_silent` follows from `Verifier.eq_verifyAll`.
-/

namespace CodeClones

open Log Parallel

/-! ## Runs that nobody cancels -/

/-- **A flag that is never raised**: it is not set, and no reading shows a write of others. -/
structure Signal.Silent (signal : Signal) : Prop where
  raised : signal.raised = false
  outside : ∀ reading, signal.outside reading = false

namespace Signal.Silent

theorem quiet : Signal.quiet.Silent where
  raised := rfl
  outside _ := rfl

variable {signal : Signal} (h : signal.Silent)

include h

theorem not_isSet : ¬signal.isSet = true := by
  rw [Signal.isSet, h.raised, h.outside, Bool.or_false]
  exact Bool.false_ne_true

theorem afterReading : signal.afterReading.Silent where
  raised := h.raised
  outside := h.outside

end Signal.Silent

/-! ## One worker or several -/

namespace SpreadVerifier

variable (verifier : Verifier) (documents : DocumentTable) {signal : Signal}

/-- **One worker verifies every pair in turn.** -/
theorem verifyUntil_of_silent (h : signal.Silent) (pairs : List DocumentPair) :
    (verifyUntil verifier documents signal pairs).pairs
        = pairs.filterMap (verifier.verify? documents)
      ∧ (verifyUntil verifier documents signal pairs).signal.Silent := by
  induction pairs generalizing signal with
  | nil => exact ⟨rfl, h⟩
  | cons pair pairs ih =>
    obtain ⟨hpairs, hsignal⟩ := ih h.afterReading
    rw [verifyUntil, if_neg h.not_isSet, List.filterMap_cons]
    cases verifier.verify? documents pair with
    | none => exact ⟨hpairs, hsignal⟩
    | some verified => exact ⟨congrArg (verified :: ·) hpairs, hsignal⟩

/-- **Several workers verify each pair whose turn comes.** -/
theorem verifySteps_of_silent (h : signal.Silent) (pairs : Array DocumentPair)
    (steps : List (Nat × Nat)) :
    (verifySteps verifier documents pairs signal steps).1
        = (steps.filterMap fun step =>
            (pairs[step.2]?.bind (verifier.verify? documents)).map (step.1, ·))
      ∧ (verifySteps verifier documents pairs signal steps).2.Silent := by
  induction steps generalizing signal with
  | nil => exact ⟨rfl, h⟩
  | cons step steps ih =>
    obtain ⟨hfound, hsignal⟩ := ih h.afterReading
    rw [verifySteps, if_neg h.not_isSet, List.filterMap_cons]
    cases pairs[step.2]?.bind (verifier.verify? documents) with
    | none => exact ⟨hfound, hsignal⟩
    | some verified => exact ⟨congrArg ((step.1, verified) :: ·) hfound, hsignal⟩

/-- What the workers find is what one worker finds, in another order. -/
theorem perm_merge_verifySteps (h : signal.Silent) (pairs : List DocumentPair)
    (load : Workload pairs.length) :
    (load.merge (verifySteps verifier documents pairs.toArray signal load.steps).1).Perm
      (pairs.filterMap (verifier.verify? documents)) := by
  rw [(verifySteps_of_silent verifier documents h pairs.toArray load.steps).1]
  refine (load.perm_merge fun entry hentry => ?_).trans ?_
  · obtain ⟨step, hstep, hfound⟩ := List.mem_filterMap.mp hentry
    obtain ⟨verified, -, rfl⟩ := Option.map_eq_some_iff.mp hfound
    exact load.employed step hstep
  · have hturns := (load.perm_filterMap_order pairs.toArray rfl).filterMap
      (verifier.verify? documents)
    rw [List.filterMap_filterMap, Workload.order, List.filterMap_map] at hturns
    rw [List.map_filterMap]
    refine (List.Perm.of_eq (List.filterMap_congr fun step _ => ?_)).trans hturns
    rw [Option.map_map]
    exact Option.map_id'

variable {documents} in
/-- **Spreading changes nothing**: under every gate and schedule a run that nobody cancels verifies
what verification in order does. -/
theorem run_of_silent (spread : SpreadVerifier) (schedule : Schedule) (hown : documents.Own)
    (h : signal.Silent) (pairs : List DocumentPair) :
    (spread.run schedule documents pairs signal).value.pairs
        = spread.verifier.verifyAll documents pairs
      ∧ (spread.run schedule documents pairs signal).value.signal.Silent := by
  rw [run]
  split
  · refine ⟨Verifier.sort_eq_verifyAll hown (perm_merge_verifySteps _ documents h pairs _), ?_⟩
    exact (verifySteps_of_silent _ documents h pairs.toArray _).2
  · obtain ⟨hpairs, hsignal⟩ := verifyUntil_of_silent spread.verifier documents h pairs
    exact ⟨congrArg VerifiedPair.sort hpairs, hsignal⟩

end SpreadVerifier

end CodeClones
