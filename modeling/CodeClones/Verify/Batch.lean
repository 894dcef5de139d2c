import CodeClones.Order.Positive
import CodeClones.Verify.Spread

/-!
# Verify/Batch — verification batch by batch

Long candidate lists are verified in batches of a fixed size, so that progress can be told, results
can be delivered early and a run can be cancelled in between.  The flag is read before each batch,
and before each pair within it.
-/

namespace CodeClones

open Log Parallel

/-- **Batches** — consecutive stretches of `size` entries, the last one perhaps shorter; a size of
zero counts as one. -/
def batches {α : Type} (size : Nat) : List α → List (List α)
  | [] => []
  | a :: rest => (a :: rest.take (size - 1)) :: batches size (rest.drop (size - 1))
termination_by entries => entries.length
decreasing_by
  simp only [List.length_drop, List.length_cons]
  omega

/-- A verifier that works in batches. -/
structure Batching where
  spread : SpreadVerifier
  batchSize : Nat

/-- Every batch is shared out anew: its schedule, by the number of pairs done before it. -/
abbrev BatchPlan := Nat → Schedule

namespace Batching

/-- For progress after each batch: every batch of at least one pair may be spread over workers. -/
def forProgress (minimum : Float) (batchSize : Nat) (gate : Gate) : Batching where
  spread := ⟨Verifier.ofMinimum minimum, { gate with minPairs := 1 }⟩
  batchSize := Order.atLeastOne batchSize

/-- For delivery of results: the gate as it is. -/
def forDelivery (minimum : Float) (batchSize : Nat) (gate : Gate) : Batching where
  spread := ⟨Verifier.ofMinimum minimum, gate⟩
  batchSize := Order.atLeastOne batchSize

/-- What is said when a run is cancelled between batches. -/
def cancelReport (processed total : Nat) : Entry where
  level := .info
  text := s!"batch verification cancelled after {processed} of {total} pairs"

/-- All results of a run, and what its listener was told. -/
structure BatchOutcome where
  pairs : List VerifiedPair
  hearing : Hearing (Nat × Nat)

/-- Verify the batches that are left, `processed` pairs being done; after each batch the listener is
told how many of the `total` pairs are done. -/
def collectFrom (batch : Batching) (plan : BatchPlan) (documents : DocumentTable)
    (listener : Listener (Nat × Nat)) (total processed : Nat) (hearing : Hearing (Nat × Nat)) :
    List (List DocumentPair) → Logged BatchOutcome
  | [] => return ⟨[], hearing⟩
  | pairs :: rest =>
    if hearing.signal.isSet then do
      Logged.report (cancelReport processed total)
      return ⟨[], hearing.afterReading⟩
    else do
      let verified ← batch.spread.run (plan processed) documents pairs hearing.signal.afterReading
      let told := ({ hearing with signal := verified.signal } : Hearing _).call listener
        (processed + pairs.length, total)
      let later ← collectFrom batch plan documents listener total (processed + pairs.length)
        told.1 rest
      return ⟨verified.pairs ++ later.pairs, later.hearing⟩

/-- **All results, with progress** — sorted by numbers. -/
def collect (batch : Batching) (plan : BatchPlan) (documents : DocumentTable)
    (listener : Listener (Nat × Nat)) (signal : Signal) (pairs : List DocumentPair) :
    Logged BatchOutcome := do
  let outcome ← collectFrom batch plan documents listener pairs.length 0 { signal := signal }
    (batches batch.batchSize pairs)
  return ⟨VerifiedPair.sort outcome.pairs, outcome.hearing⟩

/-- What a listener is told after a batch. -/
structure Progress where
  processed : Nat
  total : Nat
  /-- How many pairs are verified so far. -/
  verified : Nat
  /-- The pairs verified in this batch. -/
  fresh : List VerifiedPair
  finished : Bool
deriving Repr

/-- How many results a run has delivered, and what its listener was told. -/
structure Delivery (α : Type) where
  delivered : Nat := 0
  hearing : Hearing α := {}

namespace Delivery

variable {α : Type}

/-- Deliver one result and count it; answer whether the listener asks for more. -/
def tell (listener : Listener α) (delivery : Delivery α) (a : α) : Delivery α × Bool :=
  let told := delivery.hearing.call listener a
  (⟨delivery.delivered + 1, told.1⟩, told.2)

/-- Read the cancel flag. -/
def afterReading (delivery : Delivery α) : Delivery α :=
  { delivery with hearing := delivery.hearing.afterReading }

end Delivery

/-- Verify the batches that are left and tell the listener about each. -/
def updatesFrom (batch : Batching) (plan : BatchPlan) (documents : DocumentTable)
    (listener : Listener Progress) (total processed delivered : Nat)
    (hearing : Hearing Progress) : List (List DocumentPair) → Logged (Delivery Progress)
  | [] => return ⟨delivered, hearing⟩
  | pairs :: rest =>
    if hearing.signal.isSet then return ⟨delivered, hearing.afterReading⟩
    else do
      let verified ← batch.spread.run (plan processed) documents pairs hearing.signal.afterReading
      let done := processed + pairs.length
      let sum := delivered + verified.pairs.length
      let told := ({ hearing with signal := verified.signal } : Hearing _).call listener
        { processed := done, total := total, verified := sum, fresh := verified.pairs,
          finished := done == total }
      if told.2 then updatesFrom batch plan documents listener total done sum told.1 rest
      else return ⟨sum, told.1⟩

/-- **An update after each batch** — the last one is marked as finished.  Without any pairs there is
a single, finished update. -/
def updates (batch : Batching) (plan : BatchPlan) (documents : DocumentTable)
    (listener : Listener Progress) (signal : Signal) (pairs : List DocumentPair) :
    Logged (Delivery Progress) :=
  if pairs.isEmpty then
    return ⟨0, (({ signal := signal } : Hearing _).call listener
      { processed := 0, total := 0, verified := 0, fresh := [], finished := true }).1⟩
  else updatesFrom batch plan documents listener pairs.length 0 0 { signal := signal }
    (batches batch.batchSize pairs)

/-- Deliver results one by one until the listener declines; the answer tells whether it asks for
more. -/
def deliver {α : Type} (listener : Listener α) (delivery : Delivery α) :
    List α → Delivery α × Bool
  | [] => (delivery, true)
  | a :: rest =>
    let told := delivery.tell listener a
    if told.2 then deliver listener told.1 rest else (told.1, false)

/-- Verify the batches that are left, `processed` pairs being done, and deliver their results. -/
def resultsFrom (batch : Batching) (plan : BatchPlan) (documents : DocumentTable)
    (listener : Listener VerifiedPair) (processed : Nat) (delivery : Delivery VerifiedPair) :
    List (List DocumentPair) → Logged (Delivery VerifiedPair)
  | [] => return delivery
  | pairs :: rest =>
    if delivery.hearing.signal.isSet then return delivery.afterReading
    else do
      let verified ← batch.spread.run (plan processed) documents pairs
        delivery.hearing.signal.afterReading
      let hearing := { delivery.hearing with signal := verified.signal }
      let told := deliver listener { delivery with hearing := hearing } verified.pairs
      if told.2 then
        resultsFrom batch plan documents listener (processed + pairs.length) told.1 rest
      else return told.1

/-- **Results as they are found** — batch after batch, sorted by numbers within each. -/
def results (batch : Batching) (plan : BatchPlan) (documents : DocumentTable)
    (listener : Listener VerifiedPair) (signal : Signal) (pairs : List DocumentPair) :
    Logged (Delivery VerifiedPair) :=
  resultsFrom batch plan documents listener 0 { hearing := { signal := signal } }
    (batches batch.batchSize pairs)

/-- Verify a candidate as it is met: the flag is read first, and a verified pair is delivered. -/
def meet (verifier : Verifier) (documents : DocumentTable) (listener : Listener VerifiedPair)
    (delivery : Delivery VerifiedPair) (pair : DocumentPair) : Delivery VerifiedPair × Bool :=
  if delivery.hearing.signal.isSet then (delivery.afterReading, false)
  else
    match verifier.verify? documents pair with
    | some verified => delivery.afterReading.tell listener verified
    | none => (delivery.afterReading, true)

/-- **Results straight from an index** — candidates are verified in the order in which they are met,
without listing them first. -/
def fromIndex (verifier : Verifier) (documents : DocumentTable) (traversal : Index.Traversal)
    (listener : Listener VerifiedPair) (signal : Signal) : Delivery VerifiedPair :=
  (Index.streamPairs traversal (meet verifier documents listener)
    { hearing := { signal := signal } }).1

end Batching

end CodeClones
