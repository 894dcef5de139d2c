import CodeClones.Log.Logged
import CodeClones.Verify.Pair
import CodeClones.Verify.Signal

/-!
# Verify/Spread — verification by one or several workers, with cancellation

The flag is read before each pair.  Once it is set the remaining pairs are skipped; what is verified
by then is still returned, sorted by numbers.
-/

namespace CodeClones

open Log Parallel

/-- A verifier with the gate that decides how many workers it has. -/
structure SpreadVerifier where
  verifier : Verifier
  gate : Gate
deriving Repr

/-- Verified pairs and the flag after the run. -/
structure Verified where
  pairs : List VerifiedPair
  signal : Signal

namespace SpreadVerifier

/-- One worker: verify until the flag is seen. -/
def verifyUntil (verifier : Verifier) (documents : DocumentTable) (signal : Signal) :
    List DocumentPair → Verified
  | [] => ⟨[], signal⟩
  | pair :: rest =>
    if signal.isSet then ⟨[], signal.afterReading⟩
    else
      let later := verifyUntil verifier documents signal.afterReading rest
      match verifier.verify? documents pair with
      | some verified => ⟨verified :: later.pairs, later.signal⟩
      | none => later

/-- Several workers, step by step in the order of time: each step reads the flag and, unless it is
set, verifies its pair. -/
def verifySteps (verifier : Verifier) (documents : DocumentTable) (pairs : Array DocumentPair)
    (signal : Signal) : List (Nat × Nat) → List (Nat × VerifiedPair) × Signal
  | [] => ([], signal)
  | (worker, item) :: steps =>
    let later := verifySteps verifier documents pairs signal.afterReading steps
    if signal.isSet then later
    else
      match pairs[item]?.bind (verifier.verify? documents) with
      | some verified => ((worker, verified) :: later.1, later.2)
      | none => later

/-- What verification by several workers says about itself. -/
def report (candidates workers kept : Nat) : Entry where
  level := .debug
  text := s!"verified {candidates} candidate pairs on {workers} threads, kept {kept}"

/-- **Verify some pairs** under the gate, until the flag is seen. -/
def run (spread : SpreadVerifier) (schedule : Schedule) (documents : DocumentTable)
    (pairs : List DocumentPair) (signal : Signal) : Logged Verified :=
  if spread.gate.spreadsPairs pairs.length then do
    let load := schedule.pairs pairs.length
    let steps := verifySteps spread.verifier documents pairs.toArray signal load.steps
    let sorted := VerifiedPair.sort (load.merge steps.1)
    Logged.report (report pairs.length spread.gate.workers sorted.length)
    return ⟨sorted, steps.2⟩
  else
    let plain := verifyUntil spread.verifier documents signal pairs
    return ⟨VerifiedPair.sort plain.pairs, plain.signal⟩

end SpreadVerifier

end CodeClones
