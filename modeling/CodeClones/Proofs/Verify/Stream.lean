import CodeClones.Proofs.Verify.Batch

/-!
# Proofs/Verify/Stream — verifying while the index is traversed

Candidates that are verified as they are met give the same pairs as candidates that are listed, put
in order and verified then.  One candidate adds to what is heard what its verification finds, and
leaves the flag alone (`meet_of_silent`); so a run over the candidates adds what verification finds
in each of them, and on every traversal each candidate is met once (`Index.perm_pairsMet`).
-/

namespace CodeClones.Batching

variable (verifier : Verifier) (documents : DocumentTable) {listener : Listener VerifiedPair}

/-- A candidate that is not verified is passed over. -/
theorem meet_of_none {delivery : Delivery VerifiedPair} (hsignal : delivery.hearing.signal.Silent)
    {pair : DocumentPair} (hverify : verifier.verify? documents pair = none) :
    meet verifier documents listener delivery pair = (delivery.afterReading, true) := by
  rw [meet, if_neg hsignal.not_isSet, hverify]

/-- A candidate that is verified is delivered. -/
theorem meet_of_some {delivery : Delivery VerifiedPair} (hsignal : delivery.hearing.signal.Silent)
    {pair : DocumentPair} {verified : VerifiedPair}
    (hverify : verifier.verify? documents pair = some verified) :
    meet verifier documents listener delivery pair
      = delivery.afterReading.tell listener verified := by
  rw [meet, if_neg hsignal.not_isSet, hverify]

/-- **One candidate** adds what its verification finds. -/
theorem meet_of_silent (hcancels : listener.NeverCancels) (hstops : listener.NeverStops)
    (delivery : Delivery VerifiedPair) (hsignal : delivery.hearing.signal.Silent)
    (pair : DocumentPair) :
    let answer := meet verifier documents listener delivery pair
    let found := (verifier.verify? documents pair).toList
    answer.2 = true
      ∧ answer.1.hearing.signal.Silent
      ∧ answer.1.delivered = delivery.delivered + found.length
      ∧ answer.1.hearing.heard.toList = delivery.hearing.heard.toList ++ found := by
  cases hverify : verifier.verify? documents pair with
  | none =>
    rw [meet_of_none verifier documents hsignal hverify]
    exact ⟨rfl, hsignal.afterReading, rfl, (List.append_nil _).symm⟩
  | some verified =>
    rw [meet_of_some verifier documents hsignal hverify,
      Delivery.tell_of_neverStops hcancels hstops]
    exact ⟨rfl, hsignal.afterReading, rfl, Array.toList_push⟩

/-- **A run over some candidates** adds what verification finds in each of them. -/
theorem handOver_meet_of_silent (hcancels : listener.NeverCancels) (hstops : listener.NeverStops)
    (delivery : Delivery VerifiedPair) (hsignal : delivery.hearing.signal.Silent)
    (pairs : List DocumentPair) :
    let final := (handOver (meet verifier documents listener) delivery pairs).1
    let found := pairs.filterMap (verifier.verify? documents)
    final.delivered = delivery.delivered + found.length
      ∧ final.hearing.heard.toList = delivery.hearing.heard.toList ++ found := by
  induction pairs generalizing delivery with
  | nil => exact ⟨rfl, (List.append_nil _).symm⟩
  | cons pair pairs ih =>
    obtain ⟨hmore, hsilent, hcount, hheard⟩ :=
      meet_of_silent verifier documents hcancels hstops delivery hsignal pair
    obtain ⟨hcounts, hall⟩ := ih _ hsilent
    have hfound : (pair :: pairs).filterMap (verifier.verify? documents)
        = (verifier.verify? documents pair).toList
          ++ pairs.filterMap (verifier.verify? documents) := by
      rw [List.filterMap_cons]
      cases verifier.verify? documents pair <;> rfl
    rw [handOver]
    dsimp only
    rw [if_pos hmore, hfound]
    refine ⟨?_, ?_⟩
    · rw [hcounts, hcount, List.length_append, Nat.add_assoc]
    · rw [hall, hheard, List.append_assoc]

/-- **Verifying while the index is traversed** — for every index and all documents, in whatever
order the buckets are met, as long as nobody cancels and the listener does not decline: no two of
the pairs delivered have the same numbers, so that any sort will do; in order they are what
verification makes of the candidate pairs, and their number is returned. -/
theorem fromIndex_agrees (index : Index) (documents : List Document) (minimum : Float)
    {traversal : Index.Traversal} (htraversal : index.Traverses traversal)
    (listener : Listener VerifiedPair) (hcancels : listener.NeverCancels)
    (hstops : listener.NeverStops) {signal : Signal} (hsignal : signal.Silent) :
    let verifier := Verifier.ofMinimum minimum
    let table := DocumentTable.ofList documents
    let delivery := fromIndex verifier table traversal listener signal
    let heard := delivery.hearing.heard.toList
    (heard.map VerifiedPair.numbers).Nodup
      ∧ VerifiedPair.sort heard = verifier.verifyAll table index.candidatePairs
      ∧ delivery.delivered = heard.length := by
  intro verifier table delivery heard
  have hown : table.Own := DocumentTable.own_ofList documents
  obtain ⟨hcount, hheard⟩ := handOver_meet_of_silent verifier table hcancels hstops
    { hearing := { signal := signal } } hsignal (Index.pairsMet traversal)
  have hheard : heard = (Index.pairsMet traversal).filterMap (verifier.verify? table) := hheard
  have hmet := Index.perm_pairsMet htraversal
  refine ⟨?_, ?_, ?_⟩
  · rw [hheard, Verifier.map_numbers_filterMap hown]
    exact (hmet.nodup_iff.mpr index.nodup_candidatePairs).filter _
  · exact Verifier.sort_eq_verifyAll hown (hheard ▸ hmet.filterMap _)
  · rw [hheard]
    exact hcount.trans (Nat.zero_add _)

/-- Two documents with the same signature, the buckets met from the last to the first. -/
theorem fromIndex_agrees_backwards :
    let index := Index.run (Split.ofCounts 1 1) [.insert ⟨7, #[5]⟩, .insert ⟨3, #[5]⟩]
    let documents : List Document := [⟨3, "a", 1, 4, 4, [5]⟩, ⟨7, "b", 1, 4, 4, [5]⟩]
    let table := DocumentTable.ofList documents
    let traversal := index.traversal.map List.reverse
    let delivery :=
      fromIndex (Verifier.ofMinimum 0.5) table traversal (fun _ _ => {}) Signal.quiet
    index.Traverses traversal
      ∧ Signal.quiet.Silent
      ∧ VerifiedPair.sort delivery.hearing.heard.toList
        = (Verifier.ofMinimum 0.5).verifyAll table index.candidatePairs
      ∧ delivery.delivered = delivery.hearing.heard.toList.length := by
  intro index documents table traversal delivery
  obtain ⟨-, hsort, hcount⟩ := fromIndex_agrees index documents 0.5 index.traverses_reverse
    (fun _ _ => {}) (fun _ _ => rfl) (fun _ _ => rfl) Signal.Silent.quiet
  exact ⟨index.traverses_reverse, Signal.Silent.quiet, hsort, hcount⟩

end CodeClones.Batching
