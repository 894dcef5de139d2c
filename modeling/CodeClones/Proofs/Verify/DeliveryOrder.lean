import CodeClones.Proofs.Verify.Interrupted

/-!
# Proofs/Verify/DeliveryOrder — results come sorted, batch by batch

A batch is sorted by numbers before its results are delivered, so candidates in another order lose
it: results stand as their candidates do exactly where the verified candidates of every batch ascend
(`results_in_candidate_order_iff`).  Candidates listed by an index ascend, and keep their order.
-/

namespace CodeClones

open Parallel

/-- Stretches of equal lengths, laid end to end, agree only if each of them does. -/
theorem flatMap_eq_flatMap_iff {α β : Type} {f g : α → List β}
    (hlength : ∀ a, (f a).length = (g a).length) {entries : List α} :
    entries.flatMap f = entries.flatMap g ↔ ∀ a ∈ entries, f a = g a := by
  induction entries with
  | nil => simp
  | cons a entries ih =>
    rw [List.flatMap_cons, List.flatMap_cons, List.forall_mem_cons, ← ih]
    exact ⟨fun h => List.append_inj h (hlength a), fun ⟨ha, hrest⟩ => by rw [ha, hrest]⟩

/-- A batch is a stretch of its entries. -/
theorem sublist_of_mem_batches {α : Type} {size : Nat} {entries part : List α}
    (h : part ∈ batches size entries) : part.Sublist entries := by
  have hpart := List.sublist_flatten_of_mem h
  rwa [flatten_batches] at hpart

namespace Batching

/-- **What is delivered**, batch by batch. -/
theorem heard_results_of_silent {table : DocumentTable} (hown : table.Own) (batch : Batching)
    (plan : BatchPlan) {listener : Listener VerifiedPair} (hcancels : listener.NeverCancels)
    (hstops : listener.NeverStops) {signal : Signal} (hsignal : signal.Silent)
    (pairs : List DocumentPair) :
    (batch.results plan table listener signal pairs).value.hearing.heard.toList
      = (batches batch.batchSize pairs).flatMap (batch.spread.verifier.verifyAll table) :=
  (resultsFrom_of_silent hown batch plan hcancels hstops 0 { hearing := { signal := signal } }
    hsignal (batches batch.batchSize pairs)).2

/-- **Results come sorted within each batch** — for all candidates, documents and sizes of batches,
as long as nobody cancels and the listener does not decline.  They come in the order in which their
candidates stand exactly if in each batch the candidates that are verified are in ascending order;
in particular they do if all candidates are. -/
theorem results_in_candidate_order_iff {table : DocumentTable} (hown : table.Own)
    (minimum : Float) (batchSize : Nat) (gate : Gate) (plan : BatchPlan)
    {listener : Listener VerifiedPair} (hcancels : listener.NeverCancels)
    (hstops : listener.NeverStops) {signal : Signal} (hsignal : signal.Silent)
    (pairs : List DocumentPair) :
    let verifier := Verifier.ofMinimum minimum
    let found := fun part : List DocumentPair => part.filterMap (verifier.verify? table)
    let parts := batches (max 1 batchSize) pairs
    let delivery :=
      ((forDelivery minimum batchSize gate).results plan table listener signal pairs).value
    let heard := delivery.hearing.heard.toList
    heard = parts.flatMap (fun part => VerifiedPair.sort (found part))
      ∧ (heard = parts.flatMap found ↔ ∀ part ∈ parts,
        (part.filter fun pair => (verifier.verify? table pair).isSome).Pairwise
          fun p q => p.le q = true)
      ∧ ((pairs.Pairwise fun p q => p.le q = true) → heard = found pairs) := by
  intro verifier found parts delivery heard
  have hheard : heard = parts.flatMap (verifier.verifyAll table) :=
    heard_results_of_silent hown (forDelivery minimum batchSize gate) plan hcancels hstops hsignal
      pairs
  have hiff : heard = parts.flatMap found ↔ ∀ part ∈ parts,
      (part.filter fun pair => (verifier.verify? table pair).isSome).Pairwise
        fun p q => p.le q = true := by
    rw [hheard, flatMap_eq_flatMap_iff fun part => (verifier.perm_verifyAll table part).length_eq]
    exact forall₂_congr fun part _ => Verifier.verifyAll_eq_filterMap_iff hown
  refine ⟨hheard, hiff, fun hpairs => ?_⟩
  have hparts : parts.flatMap found = found pairs := by
    rw [List.flatMap, ← List.filterMap_flatten, flatten_batches]
  rw [← hparts, hiff]
  intro part hpart
  exact hpairs.sublist (List.filter_sublist.trans (sublist_of_mem_batches hpart))

/-- Three candidates in ascending order, in batches of two. -/
theorem results_in_candidate_order_of_ascending :
    let table := DocumentTable.ofList Verifier.threeAlike
    let pairs : List DocumentPair := [⟨1, 2⟩, ⟨1, 3⟩, ⟨2, 3⟩]
    let heard := ((forDelivery 0.5 2 Gate.closed).results (fun _ => Schedule.dealt 1) table
      Listener.patient Signal.quiet pairs).value.hearing.heard.toList
    table.Own ∧ (Listener.patient : Listener VerifiedPair).NeverCancels
      ∧ (Listener.patient : Listener VerifiedPair).NeverStops ∧ Signal.quiet.Silent
      ∧ heard.map VerifiedPair.numbers = pairs := by
  intro table pairs heard
  have hown : table.Own := DocumentTable.own_ofList Verifier.threeAlike
  obtain ⟨-, -, hascending⟩ := results_in_candidate_order_iff hown 0.5 2 Gate.closed
    (fun _ => Schedule.dealt 1) Listener.neverCancels_patient Listener.neverStops_patient
    Signal.Silent.quiet pairs
  exact ⟨hown, Listener.neverCancels_patient, Listener.neverStops_patient, Signal.Silent.quiet,
    (congrArg _ (hascending (by decide))).trans (Verifier.map_numbers_threeAlike fun _ => id)⟩

/-- Two candidates in descending order, in one batch: they are delivered in ascending order. -/
theorem results_against_candidate_order :
    let table := DocumentTable.ofList Verifier.threeAlike
    let pairs : List DocumentPair := [⟨2, 3⟩, ⟨1, 2⟩]
    let heard := ((forDelivery 0.5 1000 Gate.closed).results (fun _ => Schedule.dealt 1) table
      Listener.patient Signal.quiet pairs).value.hearing.heard.toList
    let found := (batches 1000 pairs).flatMap fun part =>
      part.filterMap ((Verifier.ofMinimum 0.5).verify? table)
    heard.map VerifiedPair.numbers = [⟨1, 2⟩, ⟨2, 3⟩]
      ∧ found.map VerifiedPair.numbers = [⟨2, 3⟩, ⟨1, 2⟩] := by
  intro table pairs heard found
  have hown : table.Own := DocumentTable.own_ofList Verifier.threeAlike
  have hbatch : batches 1000 pairs = [pairs] :=
    batches_of_length_le (List.cons_ne_nil _ _) (by decide)
  have hheard : heard = (batches 1000 pairs).flatMap ((Verifier.ofMinimum 0.5).verifyAll table) :=
    heard_results_of_silent hown (forDelivery 0.5 1000 Gate.closed) _
      Listener.neverCancels_patient Listener.neverStops_patient Signal.Silent.quiet pairs
  refine ⟨?_, ?_⟩
  · rw [hheard, hbatch, List.flatMap_singleton,
      Verifier.verifyAll_of_perm hown (List.Perm.swap ⟨1, 2⟩ ⟨2, 3⟩ [])]
    exact Verifier.map_numbers_verifyAll_threeAlike (by decide)
  · dsimp only [found]
    rw [hbatch, List.flatMap_singleton]
    exact Verifier.map_numbers_threeAlike (by decide)

end Batching

end CodeClones
