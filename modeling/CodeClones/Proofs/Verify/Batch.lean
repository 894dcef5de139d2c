import CodeClones.Proofs.Verify.Spread
import CodeClones.Verify.Batch

/-!
# Proofs/Verify/Batch — every driver of verification gives the same pairs

Batches laid end to end are the candidates (`flatten_batches`), so what the batches of a run give,
one after the other, is what the candidates give in another order; sorted by numbers it is what
verification in order gives.  Three runs work in batches: `collectFrom`, `updatesFrom` and
`resultsFrom`.  When nobody cancels and no listener declines, each of them handles every batch, and
one lemma for each (`collectFrom_of_silent`, `updatesFrom_of_silent`, `resultsFrom_of_silent`) says
what its listener has heard in the end.
-/

namespace CodeClones

open Log Parallel

/-! ## Batches and marks -/

section Batches

variable {α : Type}

/-- **Batches laid end to end** are what was cut into batches. -/
theorem flatten_batches (size : Nat) (entries : List α) :
    (batches size entries).flatten = entries := by
  fun_induction batches size entries with
  | case1 => rfl
  | case2 a rest ih => rw [List.flatten_cons, ih, List.cons_append, List.take_append_drop]

theorem ne_nil_of_mem_batches {size : Nat} {entries part : List α}
    (h : part ∈ batches size entries) : part ≠ [] := by
  fun_induction batches size entries with
  | case1 => exact absurd h List.not_mem_nil
  | case2 a rest ih => exact (List.mem_cons.mp h).elim (fun heq => heq ▸ List.cons_ne_nil _ _) ih

/-- What fits in one batch is one batch. -/
theorem batches_of_length_le {size : Nat} {entries : List α} (hne : entries ≠ [])
    (hle : entries.length ≤ size) : batches size entries = [entries] := by
  obtain ⟨a, rest, rfl⟩ := List.exists_cons_of_ne_nil hne
  have hrest : rest.length ≤ size - 1 := Nat.le_sub_one_of_lt hle
  rw [batches, List.take_of_length_le hrest, List.drop_of_length_le hrest, batches]

/-- **The first batches** are those of the first entries. -/
theorem take_batches {size : Nat} (hsize : 0 < size) (count : Nat) (entries : List α) :
    (batches size entries).take count = batches size (entries.take (count * size)) := by
  fun_induction batches size entries generalizing count with
  | case1 => rw [List.take_nil, List.take_nil, batches]
  | case2 a rest ih =>
    cases count with
    | zero => rw [List.take_zero, Nat.zero_mul, List.take_zero, batches]
    | succ count =>
      have hentries : (a :: rest).take ((count + 1) * size)
          = a :: rest.take (size - 1 + count * size) := by
        rw [show (count + 1) * size = size - 1 + count * size + 1 by
          rw [Nat.succ_mul]
          omega, List.take_succ_cons]
      rw [List.take_succ_cons, ih, hentries, batches, List.take_take,
        Nat.min_eq_left (Nat.le_add_right _ _), List.drop_take, Nat.add_sub_cancel_left]

/-- How many entries are done after each of some batches, `done` being done before them. -/
def countsFrom (done : Nat) : List (List α) → List Nat
  | [] => []
  | batch :: rest => (done + batch.length) :: countsFrom (done + batch.length) rest

/-- **The marks** that batches of `size` pass: its multiples, and `total` in the end. -/
def marks (size total : Nat) : List Nat :=
  (List.range ((total + size - 1) / size)).map fun batch => min ((batch + 1) * size) total

theorem marks_of_pos {size total : Nat} (hsize : 0 < size) (htotal : 0 < total) :
    marks size total = min size total :: (marks size (total - size)).map (min size total + ·) := by
  have hcount : (total + size - 1) / size = (total - size + size - 1) / size + 1 := by
    rcases Nat.le_total size total with hle | hle
    · rw [← Nat.add_div_right _ hsize]
      congr 1
      omega
    · rw [Nat.sub_eq_zero_of_le hle, Nat.zero_add, Nat.div_eq_of_lt (Nat.sub_one_lt_of_lt hsize),
        show total + size - 1 = total - 1 + size by omega, Nat.add_div_right _ hsize,
        Nat.div_eq_of_lt (by omega)]
  rw [marks, hcount, List.range_succ_eq_map, List.map_cons, List.map_map, marks, List.map_map,
    Nat.zero_add, Nat.one_mul]
  refine congrArg (_ :: ·) (List.map_congr_left fun batch _ => ?_)
  have hnext : (batch + 1 + 1) * size = (batch + 1) * size + size := Nat.succ_mul _ _
  rw [Function.comp_apply, Function.comp_apply, Nat.succ_eq_add_one, hnext]
  omega

/-- **After each batch its mark is passed.** -/
theorem countsFrom_batches {size : Nat} (hsize : 0 < size) (entries : List α) (done : Nat) :
    countsFrom done (batches size entries) = (marks size entries.length).map (done + ·) := by
  fun_induction batches size entries generalizing done with
  | case1 =>
    rw [List.length_nil, marks, Nat.zero_add, Nat.div_eq_of_lt (Nat.sub_one_lt_of_lt hsize)]
    rfl
  | case2 a rest ih =>
    have hbatch : (a :: rest.take (size - 1)).length = min size (a :: rest).length := by
      simp only [List.length_cons, List.length_take]
      omega
    have hrest : (rest.drop (size - 1)).length = (a :: rest).length - size := by
      simp only [List.length_cons, List.length_drop]
      omega
    rw [countsFrom, ih, hbatch, hrest,
      marks_of_pos hsize (List.length_pos_of_ne_nil (List.cons_ne_nil a rest)), List.map_cons,
      List.map_map]
    exact congrArg (_ :: ·) (List.map_congr_left fun mark _ => Nat.add_assoc _ _ _)

/-- **Only the last mark is the total.** -/
theorem getElem_marks_eq_total_iff {size total batch : Nat} (hsize : 0 < size)
    (hbatch : batch < (marks size total).length) :
    (marks size total)[batch] = total ↔ batch + 1 = (marks size total).length := by
  have hlength : (marks size total).length = (total + size - 1) / size := by
    rw [marks, List.length_map, List.length_range]
  have hreaches : (total + size - 1) / size ≤ batch + 1 ↔ total ≤ (batch + 1) * size := by
    rw [Nat.div_le_iff_le_mul_add_pred hsize, Nat.mul_comm size]
    omega
  have hmark : (marks size total)[batch] = min ((batch + 1) * size) total := by
    simp only [marks, List.getElem_map, List.getElem_range]
  rw [hmark]
  omega

end Batches

/-! ## Listeners -/

section Listeners

variable {α : Type} {listener : Listener α}

/-- It never raises the flag. -/
def Listener.NeverCancels (listener : Listener α) : Prop :=
  ∀ call a, (listener call a).cancels = false

/-- It always asks for more. -/
def Listener.NeverStops (listener : Listener α) : Prop :=
  ∀ call a, (listener call a).goesOn = true

/-- What is told to a listener that never cancels is heard, and nothing else happens. -/
theorem Hearing.call_fst (h : listener.NeverCancels) (hearing : Hearing α) (a : α) :
    (hearing.call listener a).1 = { hearing with heard := hearing.heard.push a } := by
  rw [Hearing.call, h]
  rfl

theorem Hearing.call_snd (h : listener.NeverStops) (hearing : Hearing α) (a : α) :
    (hearing.call listener a).2 = true :=
  h _ a

namespace Batching

/-- **One more is heard and counted**, and more is asked for. -/
theorem Delivery.tell_of_neverStops (hcancels : listener.NeverCancels)
    (hstops : listener.NeverStops) (delivery : Delivery α) (a : α) :
    delivery.tell listener a
      = ({ delivered := delivery.delivered + 1
           hearing := { delivery.hearing with
             heard := delivery.hearing.heard.push a } }, true) := by
  rw [tell, Hearing.call_fst hcancels, Hearing.call_snd hstops]

/-- **Every result is delivered.** -/
theorem deliver_of_neverStops (hcancels : listener.NeverCancels) (hstops : listener.NeverStops)
    (delivery : Delivery α) (found : List α) :
    deliver listener delivery found
      = ({ delivered := delivery.delivered + found.length
           hearing := { delivery.hearing with
             heard := delivery.hearing.heard ++ found.toArray } }, true) := by
  induction found generalizing delivery with
  | nil => simp [deliver]
  | cons a found ih =>
    rw [deliver, Delivery.tell_of_neverStops hcancels hstops]
    dsimp only
    rw [if_pos rfl, ih]
    simp [Nat.add_right_comm, Nat.add_assoc]

end Batching

end Listeners

/-! ## Undisturbed runs -/

namespace Batching

/-- The updates about some batches when nobody interferes. -/
def updatesAbout (verifier : Verifier) (documents : DocumentTable)
    (total processed verified : Nat) : List (List DocumentPair) → List Progress
  | [] => []
  | pairs :: rest =>
    let fresh := verifier.verifyAll documents pairs
    let done := processed + pairs.length
    let sum := verified + fresh.length
    { processed := done, total := total, verified := sum, fresh := fresh,
      finished := done == total } :: updatesAbout verifier documents total done sum rest

/-- The update about one batch. -/
def updateAbout (verifier : Verifier) (documents : DocumentTable)
    (total processed verified : Nat) (pairs : List DocumentPair) : Progress where
  processed := processed + pairs.length
  total := total
  verified := verified + (verifier.verifyAll documents pairs).length
  fresh := verifier.verifyAll documents pairs
  finished := processed + pairs.length == total

section UpdatesAbout

variable (verifier : Verifier) (documents : DocumentTable) (total processed verified : Nat)
  (parts : List (List DocumentPair))

theorem updatesAbout_cons (pairs : List DocumentPair) :
    updatesAbout verifier documents total processed verified (pairs :: parts)
      = updateAbout verifier documents total processed verified pairs
        :: updatesAbout verifier documents total (processed + pairs.length)
          (verified + (verifier.verifyAll documents pairs).length) parts := rfl

theorem flatMap_fresh_updatesAbout :
    (updatesAbout verifier documents total processed verified parts).flatMap Progress.fresh
      = parts.flatMap (verifier.verifyAll documents) := by
  induction parts generalizing processed verified with
  | nil => rfl
  | cons pairs parts ih => rw [updatesAbout, List.flatMap_cons, List.flatMap_cons, ih]

theorem map_processed_updatesAbout :
    (updatesAbout verifier documents total processed verified parts).map Progress.processed
      = countsFrom processed parts := by
  induction parts generalizing processed verified with
  | nil => rfl
  | cons pairs parts ih => rw [updatesAbout, List.map_cons, countsFrom, ih]

theorem finished_of_mem_updatesAbout {update : Progress}
    (h : update ∈ updatesAbout verifier documents total processed verified parts) :
    update.finished = (update.processed == total) := by
  induction parts generalizing processed verified with
  | nil => exact absurd h List.not_mem_nil
  | cons pairs parts ih =>
    rw [updatesAbout, List.mem_cons] at h
    rcases h with rfl | h
    · rfl
    · exact ih _ _ h

end UpdatesAbout

/-- **Only the last update is finished**, where updates are finished when all pairs are done. -/
theorem finished_iff_last {size total : Nat} (hsize : 0 < size) {heard : List Progress}
    (hprocessed : heard.map Progress.processed = marks size total)
    (hfinished : ∀ update ∈ heard, update.finished = (update.processed == total)) {k : Nat}
    (hk : k < heard.length) : heard[k].finished = true ↔ k + 1 = heard.length := by
  have hlength : heard.length = (marks size total).length := by
    rw [← hprocessed, List.length_map]
  have hmark : heard[k].processed = (marks size total)[k] := by
    simp only [← hprocessed, List.getElem_map]
  rw [hfinished _ (List.getElem_mem hk), beq_iff_eq, hmark, hlength]
  exact getElem_marks_eq_total_iff hsize (hlength ▸ hk)

variable {documents : DocumentTable} (hown : documents.Own) (batch : Batching) (plan : BatchPlan)

include hown

/-! ## One batch -/

/-- **One batch of a collecting run** whose flag is silent. -/
theorem collectFrom_cons (listener : Listener (Nat × Nat)) (total processed : Nat)
    (hearing : Hearing (Nat × Nat)) (hsignal : hearing.signal.Silent) (pairs : List DocumentPair)
    (parts : List (List DocumentPair)) :
    ∃ signal : Signal, signal.Silent ∧
      let told := Hearing.call listener ⟨hearing.heard, signal⟩ (processed + pairs.length, total)
      let later := (batch.collectFrom plan documents listener total (processed + pairs.length)
        told.1 parts).value
      (batch.collectFrom plan documents listener total processed hearing (pairs :: parts)).value
        = ⟨batch.spread.verifier.verifyAll documents pairs ++ later.pairs, later.hearing⟩ := by
  obtain ⟨hpairs, hsilent⟩ :=
    batch.spread.run_of_silent (plan processed) hown hsignal.afterReading pairs
  refine ⟨_, hsilent, ?_⟩
  rw [collectFrom, if_neg hsignal.not_isSet]
  dsimp only [Logged.value_bind, Logged.value_pure]
  rw [hpairs]

/-- **One batch of an updating run** whose flag is silent. -/
theorem updatesFrom_cons (listener : Listener Progress) (total processed delivered : Nat)
    (hearing : Hearing Progress) (hsignal : hearing.signal.Silent) (pairs : List DocumentPair)
    (parts : List (List DocumentPair)) :
    ∃ signal : Signal, signal.Silent ∧
      let update := updateAbout batch.spread.verifier documents total processed delivered pairs
      let told := Hearing.call listener ⟨hearing.heard, signal⟩ update
      (batch.updatesFrom plan documents listener total processed delivered hearing
          (pairs :: parts)).value
        = if told.2 then (batch.updatesFrom plan documents listener total update.processed
            update.verified told.1 parts).value
          else ⟨update.verified, told.1⟩ := by
  obtain ⟨hpairs, hsilent⟩ :=
    batch.spread.run_of_silent (plan processed) hown hsignal.afterReading pairs
  refine ⟨_, hsilent, ?_⟩
  rw [updatesFrom, if_neg hsignal.not_isSet]
  dsimp only [Logged.value_bind]
  rw [hpairs, updateAbout]
  split <;> rfl

/-- **One batch of a delivering run** whose flag is silent. -/
theorem resultsFrom_cons (listener : Listener VerifiedPair) (processed : Nat)
    (delivery : Delivery VerifiedPair) (hsignal : delivery.hearing.signal.Silent)
    (pairs : List DocumentPair) (parts : List (List DocumentPair)) :
    ∃ signal : Signal, signal.Silent ∧
      let told := deliver listener ⟨delivery.delivered, ⟨delivery.hearing.heard, signal⟩⟩
        (batch.spread.verifier.verifyAll documents pairs)
      (batch.resultsFrom plan documents listener processed delivery (pairs :: parts)).value
        = if told.2 then (batch.resultsFrom plan documents listener (processed + pairs.length)
            told.1 parts).value
          else told.1 := by
  obtain ⟨hpairs, hsilent⟩ :=
    batch.spread.run_of_silent (plan processed) hown hsignal.afterReading pairs
  refine ⟨_, hsilent, ?_⟩
  rw [resultsFrom, if_neg hsignal.not_isSet]
  dsimp only [Logged.value_bind]
  rw [hpairs]
  split <;> rfl

/-! ## All batches -/

/-- What an undisturbed run collects, and what it tells. -/
theorem collectFrom_of_silent {listener : Listener (Nat × Nat)} (hcancels : listener.NeverCancels)
    (total processed : Nat) (hearing : Hearing (Nat × Nat)) (hsignal : hearing.signal.Silent)
    (parts : List (List DocumentPair)) :
    let outcome :=
      (batch.collectFrom plan documents listener total processed hearing parts).value
    outcome.pairs = parts.flatMap (batch.spread.verifier.verifyAll documents)
      ∧ outcome.hearing.heard.toList
        = hearing.heard.toList ++ (countsFrom processed parts).map (·, total) := by
  induction parts generalizing processed hearing with
  | nil => exact ⟨rfl, (List.append_nil _).symm⟩
  | cons pairs parts ih =>
    obtain ⟨signal, hsilent, hrun⟩ :=
      collectFrom_cons hown batch plan listener total processed hearing hsignal pairs parts
    dsimp only at hrun
    rw [Hearing.call_fst hcancels] at hrun
    obtain ⟨hlater, hheard⟩ := ih (processed + pairs.length)
      ⟨hearing.heard.push (processed + pairs.length, total), signal⟩ hsilent
    rw [hrun]
    refine ⟨?_, ?_⟩
    · rw [hlater, List.flatMap_cons]
    · rw [hheard, countsFrom]
      simp

/-- What an undisturbed run tells batch by batch, and how many pairs it counts. -/
theorem updatesFrom_of_silent {listener : Listener Progress} (hcancels : listener.NeverCancels)
    (hstops : listener.NeverStops) (total processed delivered : Nat) (hearing : Hearing Progress)
    (hsignal : hearing.signal.Silent) (parts : List (List DocumentPair)) :
    let delivery :=
      (batch.updatesFrom plan documents listener total processed delivered hearing parts).value
    delivery.delivered
        = delivered + (parts.flatMap (batch.spread.verifier.verifyAll documents)).length
      ∧ delivery.hearing.heard.toList = hearing.heard.toList
        ++ updatesAbout batch.spread.verifier documents total processed delivered parts := by
  induction parts generalizing processed delivered hearing with
  | nil => exact ⟨rfl, (List.append_nil _).symm⟩
  | cons pairs parts ih =>
    obtain ⟨signal, hsilent, hrun⟩ := updatesFrom_cons hown batch plan listener total processed
      delivered hearing hsignal pairs parts
    dsimp only at hrun
    rw [Hearing.call_snd hstops, if_pos rfl, Hearing.call_fst hcancels] at hrun
    obtain ⟨hcount, hheard⟩ := ih (processed + pairs.length)
      (delivered + (batch.spread.verifier.verifyAll documents pairs).length)
      ⟨hearing.heard.push _, signal⟩ hsilent
    rw [hrun]
    refine ⟨hcount.trans ?_, hheard.trans ?_⟩
    · rw [List.flatMap_cons, List.length_append, Nat.add_assoc]
    · rw [updatesAbout_cons]
      simp

/-- What an undisturbed run delivers result by result, and how many it counts. -/
theorem resultsFrom_of_silent {listener : Listener VerifiedPair}
    (hcancels : listener.NeverCancels) (hstops : listener.NeverStops) (processed : Nat)
    (delivery : Delivery VerifiedPair) (hsignal : delivery.hearing.signal.Silent)
    (parts : List (List DocumentPair)) :
    let final := (batch.resultsFrom plan documents listener processed delivery parts).value
    let found := parts.flatMap (batch.spread.verifier.verifyAll documents)
    final.delivered = delivery.delivered + found.length
      ∧ final.hearing.heard.toList = delivery.hearing.heard.toList ++ found := by
  induction parts generalizing processed delivery with
  | nil => exact ⟨rfl, (List.append_nil _).symm⟩
  | cons pairs parts ih =>
    obtain ⟨signal, hsilent, hrun⟩ :=
      resultsFrom_cons hown batch plan listener processed delivery hsignal pairs parts
    dsimp only at hrun
    rw [deliver_of_neverStops hcancels hstops, if_pos rfl] at hrun
    obtain ⟨hcount, hheard⟩ := ih (processed + pairs.length) ⟨_, ⟨_, signal⟩⟩ hsilent
    rw [hrun]
    refine ⟨hcount.trans ?_, hheard.trans ?_⟩
    · rw [List.flatMap_cons, List.length_append, Nat.add_assoc]
    · rw [List.flatMap_cons]
      simp

omit hown in
/-- What the batches give, one after the other, is what the candidates give in another order. -/
theorem perm_flatMap_verifyAll (verifier : Verifier) (size : Nat) (pairs : List DocumentPair) :
    ((batches size pairs).flatMap (verifier.verifyAll documents)).Perm
      (pairs.filterMap (verifier.verify? documents)) := by
  refine (List.Perm.flatMap_left _ fun part _ => verifier.perm_verifyAll documents part).trans ?_
  rw [List.flatMap, ← List.filterMap_flatten, flatten_batches]

theorem sort_flatMap_verifyAll (verifier : Verifier) (size : Nat) (pairs : List DocumentPair) :
    VerifiedPair.sort ((batches size pairs).flatMap (verifier.verifyAll documents))
      = verifier.verifyAll documents pairs :=
  Verifier.sort_eq_verifyAll hown (perm_flatMap_verifyAll verifier size pairs)

omit hown in
theorem length_flatMap_verifyAll (verifier : Verifier) (size : Nat) (pairs : List DocumentPair) :
    ((batches size pairs).flatMap (verifier.verifyAll documents)).length
      = (verifier.verifyAll documents pairs).length :=
  ((perm_flatMap_verifyAll verifier size pairs).trans
    (verifier.perm_verifyAll documents pairs).symm).length_eq

variable (hsize : 0 < batch.batchSize) {signal : Signal} (hsignal : signal.Silent)
  (pairs : List DocumentPair)

include hsize hsignal

/-- **Progress**: all pairs are verified, and each mark is told. -/
theorem collect_of_silent {listener : Listener (Nat × Nat)} (hcancels : listener.NeverCancels) :
    let outcome := (batch.collect plan documents listener signal pairs).value
    outcome.pairs = batch.spread.verifier.verifyAll documents pairs
      ∧ outcome.hearing.heard.toList
        = (marks batch.batchSize pairs.length).map (·, pairs.length) := by
  obtain ⟨hpairs, hheard⟩ := collectFrom_of_silent hown batch plan hcancels pairs.length 0
    { signal := signal } hsignal (batches batch.batchSize pairs)
  refine ⟨?_, hheard.trans ?_⟩
  · rw [← sort_flatMap_verifyAll hown _ batch.batchSize, ← hpairs]
    rfl
  · rw [countsFrom_batches hsize]
    simp

/-- **Updates**: their pairs together are all verified pairs, each of them tells its mark, and the
last one is finished. -/
theorem updates_of_silent {listener : Listener Progress} (hcancels : listener.NeverCancels)
    (hstops : listener.NeverStops) :
    let delivery := (batch.updates plan documents listener signal pairs).value
    let heard := delivery.hearing.heard.toList
    VerifiedPair.sort (heard.flatMap Progress.fresh)
        = batch.spread.verifier.verifyAll documents pairs
      ∧ delivery.delivered = (batch.spread.verifier.verifyAll documents pairs).length
      ∧ (pairs ≠ [] → heard.map Progress.processed = marks batch.batchSize pairs.length
        ∧ ∀ (k : Nat) (hk : k < heard.length),
          heard[k].finished = true ↔ k + 1 = heard.length) := by
  rcases eq_or_ne pairs [] with rfl | hpairs
  · exact ⟨rfl, (congrArg List.length List.mergeSort_nil).symm, fun hpairs => absurd rfl hpairs⟩
  · obtain ⟨hcount, hheard⟩ := updatesFrom_of_silent hown batch plan hcancels hstops pairs.length 0
      0 { signal := signal } hsignal (batches batch.batchSize pairs)
    rw [updates, if_neg (mt List.isEmpty_iff.mp hpairs)]
    intro delivery heard
    have hheard : heard = updatesAbout batch.spread.verifier documents pairs.length 0 0
        (batches batch.batchSize pairs) := hheard
    have hprocessed : heard.map Progress.processed = marks batch.batchSize pairs.length := by
      rw [hheard, map_processed_updatesAbout, countsFrom_batches hsize]
      simp
    refine ⟨?_, ?_, fun _ => ⟨hprocessed, fun k hk => ?_⟩⟩
    · rw [hheard, flatMap_fresh_updatesAbout, sort_flatMap_verifyAll hown]
    · rw [← length_flatMap_verifyAll _ batch.batchSize]
      exact hcount.trans (Nat.zero_add _)
    · refine finished_iff_last hsize hprocessed (fun update hupdate => ?_) hk
      exact finished_of_mem_updatesAbout _ _ _ _ _ _ (hheard ▸ hupdate)

omit hsize in
/-- **Results**: the verified pairs are delivered and counted. -/
theorem results_of_silent {listener : Listener VerifiedPair} (hcancels : listener.NeverCancels)
    (hstops : listener.NeverStops) :
    let delivery := (batch.results plan documents listener signal pairs).value
    VerifiedPair.sort delivery.hearing.heard.toList
        = batch.spread.verifier.verifyAll documents pairs
      ∧ delivery.delivered = (batch.spread.verifier.verifyAll documents pairs).length := by
  obtain ⟨hcount, hheard⟩ := resultsFrom_of_silent hown batch plan hcancels hstops 0
    { hearing := { signal := signal } } hsignal (batches batch.batchSize pairs)
  refine ⟨?_, ?_⟩
  · rw [← sort_flatMap_verifyAll hown _ batch.batchSize]
    exact congrArg VerifiedPair.sort hheard
  · rw [← length_flatMap_verifyAll _ batch.batchSize]
    exact hcount.trans (Nat.zero_add _)

end Batching

/-! ## Agreement -/

/-- **Every driver gives the pairs that verification in order gives** — for all documents and
candidates, whatever the minimum, the gate and the size of the batches, as long as nobody cancels
and no listener declines.  By whatever sort, verification in order has one result.  Verification
under the gate has the same on every schedule; so has verification in batches, and so have the pairs
of all updates together and the results that are delivered, once they are sorted; their counts are
right.  After each batch its mark is told, and only the last update is finished. -/
theorem Batching.drivers_agree (documents : List Document) (minimum : Float) (batchSize : Nat)
    (gate : Gate) (pairs : List DocumentPair) {signal : Signal} (hsignal : signal.Silent) :
    let verifier := Verifier.ofMinimum minimum
    let table := DocumentTable.ofList documents
    let all := verifier.verifyAll table pairs
    let passed := marks (max 1 batchSize) pairs.length
    (∀ sorted : List VerifiedPair, sorted.Perm (pairs.filterMap (verifier.verify? table)) →
        sorted.Pairwise (fun a b => a.le b = true) → sorted = all)
      ∧ (∀ schedule : Schedule,
          (SpreadVerifier.run ⟨verifier, gate⟩ schedule table pairs signal).value.pairs = all)
      ∧ (∀ (plan : BatchPlan) (listener : Listener (Nat × Nat)), listener.NeverCancels →
          let outcome := ((forProgress minimum batchSize gate).collect plan table listener signal
            pairs).value
          outcome.pairs = all ∧ outcome.hearing.heard.toList = passed.map (·, pairs.length))
      ∧ (∀ (plan : BatchPlan) (listener : Listener Progress), listener.NeverCancels →
          listener.NeverStops →
          let delivery := ((forDelivery minimum batchSize gate).updates plan table listener signal
            pairs).value
          let heard := delivery.hearing.heard.toList
          VerifiedPair.sort (heard.flatMap Progress.fresh) = all
            ∧ delivery.delivered = all.length
            ∧ (pairs ≠ [] → heard.map Progress.processed = passed
              ∧ ∀ (k : Nat) (hk : k < heard.length),
                heard[k].finished = true ↔ k + 1 = heard.length))
      ∧ (∀ (plan : BatchPlan) (listener : Listener VerifiedPair), listener.NeverCancels →
          listener.NeverStops →
          let delivery := ((forDelivery minimum batchSize gate).results plan table listener signal
            pairs).value
          VerifiedPair.sort delivery.hearing.heard.toList = all
            ∧ delivery.delivered = all.length) := by
  intro verifier table all passed
  have hown : table.Own := DocumentTable.own_ofList documents
  have hsize : 0 < Order.atLeastOne batchSize := Order.atLeastOne_pos batchSize
  refine ⟨fun sorted => Verifier.eq_verifyAll hown, fun schedule => ?_, fun plan listener => ?_,
    fun plan listener => ?_, fun plan listener => ?_⟩
  · exact (SpreadVerifier.run_of_silent ⟨verifier, gate⟩ schedule hown hsignal pairs).1
  · exact collect_of_silent hown (forProgress minimum batchSize gate) plan hsize hsignal pairs
  · exact updates_of_silent hown (forDelivery minimum batchSize gate) plan hsize hsignal pairs
  · exact results_of_silent hown (forDelivery minimum batchSize gate) plan hsignal pairs

/-- Candidates out of order, one of them twice and one unknown, in batches of three. -/
theorem Batching.drivers_agree_in_two_batches :
    let documents : List Document :=
      [⟨1, "a", 1, 4, 4, [5, 7]⟩, ⟨2, "a", 9, 12, 4, [5, 7]⟩, ⟨3, "b", 1, 4, 4, [5, 8]⟩]
    let pairs : List DocumentPair := [⟨2, 3⟩, ⟨1, 2⟩, ⟨1, 2⟩, ⟨1, 9⟩]
    let gate : Gate := { enabled := true, minDocuments := 1, minPairs := 2, workers := 2 }
    let table := DocumentTable.ofList documents
    let all := (Verifier.ofMinimum 0.5).verifyAll table pairs
    let plan : BatchPlan := fun _ => Schedule.dealt 2
    let collected :=
      ((forProgress 0.5 3 gate).collect plan table (fun _ _ => {}) Signal.quiet pairs).value
    let updated :=
      ((forDelivery 0.5 3 gate).updates plan table (fun _ _ => {}) Signal.quiet pairs).value
    let delivered :=
      ((forDelivery 0.5 3 gate).results plan table (fun _ _ => {}) Signal.quiet pairs).value
    Signal.quiet.Silent
      ∧ collected.pairs = all
      ∧ collected.hearing.heard.toList = [(3, 4), (4, 4)]
      ∧ updated.hearing.heard.toList.map Progress.processed = [3, 4]
      ∧ VerifiedPair.sort (updated.hearing.heard.toList.flatMap Progress.fresh) = all
      ∧ VerifiedPair.sort delivered.hearing.heard.toList = all
      ∧ delivered.delivered = all.length := by
  intro documents pairs gate table all plan collected updated delivered
  obtain ⟨-, -, hcollect, hupdates, hresults⟩ :=
    drivers_agree documents 0.5 3 gate pairs Signal.Silent.quiet
  obtain ⟨hpairs, htold⟩ := hcollect plan (fun _ _ => {}) fun _ _ => rfl
  obtain ⟨hfresh, -, hpassed⟩ := hupdates plan (fun _ _ => {}) (fun _ _ => rfl) fun _ _ => rfl
  obtain ⟨hsort, hcount⟩ := hresults plan (fun _ _ => {}) (fun _ _ => rfl) fun _ _ => rfl
  have hmarks : marks (max 1 3) pairs.length = [3, 4] := by decide
  rw [hmarks] at htold hpassed
  exact ⟨Signal.Silent.quiet, hpairs, htold, (hpassed (List.cons_ne_nil _ _)).1, hfresh, hsort,
    hcount⟩

end CodeClones
