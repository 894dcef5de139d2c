import CodeClones.Proofs.Verify.Stream

/-!
# Proofs/Verify/Interrupted — an interrupted run tells a prefix

A listener may let a run go on for a while and then, at its call `k`, decline or raise the flag.
Up to that call the run is the one that nobody disturbs, and it ends soon after: with an update, a
mark or a candidate it ends at once; with a result it goes on to the end of the batch if the flag is
raised.  Each lemma below counts the calls that are `left` before call `k`; by recursion along the
run the listener hears `left + 1` entries more, or all that there are.
-/

namespace CodeClones

open Log Parallel

/-! ## Listeners that interrupt -/

namespace Listener

variable {α : Type}

/-- It lets a run go its way: it always asks for more and leaves the flag alone. -/
def patient : Listener α :=
  fun _ _ => {}

theorem neverCancels_patient : (patient : Listener α).NeverCancels := fun _ _ => rfl

theorem neverStops_patient : (patient : Listener α).NeverStops := fun _ _ => rfl

/-- Before call `k` it asks for more and leaves the flag alone. -/
def CalmBefore (listener : Listener α) (k : Nat) : Prop :=
  ∀ call a, call < k → listener call a = {}

/-- **It declines at call `k`**, and does nothing before. -/
structure StopsAt (listener : Listener α) (k : Nat) : Prop where
  calm : listener.CalmBefore k
  stops : ∀ a, (listener k a).goesOn = false

/-- **It raises the flag at call `k`**, and not before. -/
structure CancelsAt (listener : Listener α) (k : Nat) : Prop where
  waits : ∀ call a, call < k → (listener call a).cancels = false
  cancels : ∀ a, (listener k a).cancels = true

/-- **It ends the run at call `k`**, in one way or the other. -/
structure EndsAt (listener : Listener α) (k : Nat) : Prop where
  calm : listener.CalmBefore k
  ends : ∀ a, (listener k a).goesOn = false ∨ (listener k a).cancels = true

variable {listener : Listener α} {k : Nat}

theorem StopsAt.endsAt (h : listener.StopsAt k) : listener.EndsAt k where
  calm := h.calm
  ends a := Or.inl (h.stops a)

theorem CancelsAt.endsAt (h : listener.CancelsAt k) (hstops : listener.NeverStops) :
    listener.EndsAt k where
  calm call a hlt := by
    change Reply.mk (listener call a).goesOn (listener call a).cancels = {}
    rw [hstops call a, h.waits call a hlt]
  ends a := Or.inr (h.cancels a)

theorem EndsAt.of_either
    (h : listener.StopsAt k ∨ listener.CancelsAt k ∧ listener.NeverStops) : listener.EndsAt k :=
  h.elim StopsAt.endsAt fun hcancels => hcancels.1.endsAt hcancels.2

end Listener

/-! ## Single calls -/

theorem Signal.isSet_of_raised {signal : Signal} (h : signal.raised = true) :
    signal.isSet = true := by
  rw [isSet, h, Bool.true_or]

namespace Hearing

variable {α : Type} {listener : Listener α} {k left : Nat} (hearing : Hearing α) (a : α)

/-- One more call is heard. -/
def hear : Hearing α :=
  { hearing with heard := hearing.heard.push a }

@[simp] theorem size_hear : (hearing.hear a).heard.size = hearing.heard.size + 1 :=
  Array.size_push a

@[simp] theorem toList_hear : (hearing.hear a).heard.toList = hearing.heard.toList ++ [a] :=
  Array.toList_push

/-- What is heard now comes before what is heard later. -/
theorem toList_hear_append (later : List α) :
    (hearing.hear a).heard.toList ++ later = hearing.heard.toList ++ a :: later := by
  rw [toList_hear, List.append_assoc, List.singleton_append]

/-- Call `left + 1` is the last one when `left` calls are left before it. -/
theorem size_fresh_add (signal : Signal) (left : Nat) :
    ({ signal := signal } : Hearing α).heard.size + left + 1 = left + 1 :=
  congrArg (· + 1) (Nat.zero_add left)

/-- One call fewer is left. -/
theorem size_hear_add (hk : hearing.heard.size + (left + 1) + 1 = k) :
    (hearing.hear a).heard.size + left + 1 = k := by
  rw [size_hear]
  omega

theorem call_of_waits (h : (listener (hearing.heard.size + 1) a).cancels = false) :
    (hearing.call listener a).1 = hearing.hear a := by
  rw [call, h]
  rfl

/-- A call before call `k` is only heard. -/
theorem call_of_calm (hcalm : listener.CalmBefore k)
    (hk : hearing.heard.size + (left + 1) + 1 = k) :
    hearing.call listener a = (hearing.hear a, true) := by
  rw [call, hcalm _ a (show hearing.heard.size + 1 < k by omega)]
  rfl

theorem goesOn_call_of_stopsAt (hstops : listener.StopsAt k) (hk : hearing.heard.size + 1 = k) :
    (hearing.call listener a).2 = false := by
  subst hk
  exact hstops.stops a

theorem raised_call_of_cancelsAt (hcancels : listener.CancelsAt k)
    (hk : hearing.heard.size + 1 = k) : (hearing.call listener a).1.signal.raised = true := by
  subst hk
  rw [call, hcancels.cancels a]
  rfl

/-- After call `k` no more is asked for, or the flag is set. -/
theorem call_of_endsAt (hends : listener.EndsAt k) (hk : hearing.heard.size + 1 = k) :
    (hearing.call listener a).2 = false
      ∨ (hearing.call listener a).1.signal.isSet = true := by
  subst hk
  refine (hends.ends a).imp id fun hcancels => ?_
  rw [call, hcancels]
  exact Signal.isSet_of_raised rfl

/-- Nobody takes the flag down. -/
theorem raised_call (h : hearing.signal.raised = true) :
    (hearing.call listener a).1.signal.raised = true := by
  rw [call]
  dsimp only
  split
  · rfl
  · exact h

end Hearing

namespace Batching

/-! ## Entries and results one by one -/

section Delivery

variable {α : Type} {listener : Listener α} {k left : Nat}

/-- **Entries handed to a listener** until it declines. -/
theorem handOver_call_of_stopsAt (hstops : listener.StopsAt k) (hearing : Hearing α)
    (hk : hearing.heard.size + left + 1 = k) (entries : List α) :
    let final := handOver (Hearing.call listener) hearing entries
    final.1.heard.toList = hearing.heard.toList ++ entries.take (left + 1)
      ∧ final.2 = (entries.take (left + 1)).length := by
  induction entries generalizing left hearing with
  | nil => exact ⟨(List.append_nil _).symm, rfl⟩
  | cons a entries ih =>
    cases left with
    | zero =>
      rw [handOver, hearing.goesOn_call_of_stopsAt a hstops hk]
      exact ⟨hearing.toList_hear a, rfl⟩
    | succ left =>
      obtain ⟨hheard, hcount⟩ := ih (hearing.hear a) (hearing.size_hear_add a hk)
      rw [handOver_cons (hearing.call_of_calm a hstops.calm hk)]
      exact ⟨hheard.trans (hearing.toList_hear_append a _), congrArg (· + 1) hcount⟩

/-- A patient listener is handed every entry. -/
theorem toList_handOver_patient (hearing : Hearing α) (entries : List α) :
    (handOver (Hearing.call Listener.patient) hearing entries).1.heard.toList
      = hearing.heard.toList ++ entries := by
  induction entries generalizing hearing with
  | nil => exact (List.append_nil _).symm
  | cons a entries ih => exact (ih (hearing.hear a)).trans (hearing.toList_hear_append a entries)

/-- The delivery of some more results, the flag being `signal` before it. -/
def Delivery.extended (delivery : Delivery α) (signal : Signal) (found : List α) : Delivery α where
  delivered := delivery.delivered + found.length
  hearing := ⟨delivery.hearing.heard ++ found.toArray, signal⟩

theorem Delivery.toList_extended (delivery : Delivery α) (signal : Signal) (found : List α) :
    (delivery.extended signal found).hearing.heard.toList
      = delivery.hearing.heard.toList ++ found :=
  Array.toList_append

/-- As many calls fewer are left. -/
theorem Delivery.size_extended (delivery : Delivery α) (signal : Signal) {found : List α}
    (hle : found.length ≤ left) (hk : delivery.hearing.heard.size + left + 1 = k) :
    (delivery.extended signal found).hearing.heard.size + (left - found.length) + 1 = k := by
  have hsize : (delivery.extended signal found).hearing.heard.size
      = delivery.hearing.heard.size + found.length := Array.size_append
  omega

/-- Results that come before call `k` are all delivered. -/
theorem deliver_of_calm (hcalm : listener.CalmBefore k) (delivery : Delivery α) {found : List α}
    (hle : found.length ≤ left) (hk : delivery.hearing.heard.size + left + 1 = k) :
    deliver listener delivery found
      = (delivery.extended delivery.hearing.signal found, true) := by
  induction found generalizing left delivery with
  | nil => simp [deliver, Delivery.extended]
  | cons a found ih =>
    obtain ⟨left, rfl⟩ := Nat.exists_eq_add_one_of_ne_zero (Nat.ne_zero_of_lt hle)
    rw [deliver, Delivery.tell, delivery.hearing.call_of_calm a hcalm hk]
    dsimp only
    rw [if_pos rfl, ih ⟨_, delivery.hearing.hear a⟩ (Nat.le_of_succ_le_succ hle)
      (delivery.hearing.size_hear_add a hk)]
    simp [Delivery.extended, Hearing.hear, Nat.add_right_comm, Nat.add_assoc]

/-- **Results are delivered until the listener declines.** -/
theorem deliver_of_stopsAt (hstops : listener.StopsAt k) (delivery : Delivery α) {found : List α}
    (hlt : left < found.length) (hk : delivery.hearing.heard.size + left + 1 = k) :
    let answer := deliver listener delivery found
    answer.2 = false ∧ answer.1.delivered = delivery.delivered + (left + 1)
      ∧ answer.1.hearing.heard.toList
        = delivery.hearing.heard.toList ++ found.take (left + 1) := by
  induction found generalizing left delivery with
  | nil => exact absurd hlt (Nat.not_lt_zero left)
  | cons a found ih =>
    rw [deliver, Delivery.tell]
    dsimp only
    cases left with
    | zero =>
      rw [delivery.hearing.goesOn_call_of_stopsAt a hstops hk]
      exact ⟨rfl, rfl, delivery.hearing.toList_hear a⟩
    | succ left =>
      obtain ⟨hend, hcount, hheard⟩ := ih ⟨delivery.delivered + 1, delivery.hearing.hear a⟩
        (Nat.lt_of_succ_lt_succ hlt) (delivery.hearing.size_hear_add a hk)
      rw [delivery.hearing.call_of_calm a hstops.calm hk, if_pos rfl]
      exact ⟨hend, hcount.trans (Nat.add_right_comm _ _ _),
        hheard.trans (delivery.hearing.toList_hear_append a _)⟩

/-- A listener that never declines is told all results, whatever becomes of the flag. -/
theorem deliver_of_goesOn (hstops : listener.NeverStops) (delivery : Delivery α)
    (found : List α) :
    let answer := deliver listener delivery found
    answer.2 = true ∧ answer.1.delivered = delivery.delivered + found.length
      ∧ answer.1.hearing.heard.toList = delivery.hearing.heard.toList ++ found
      ∧ (delivery.hearing.signal.raised = true → answer.1.hearing.signal.raised = true) := by
  induction found generalizing delivery with
  | nil => exact ⟨rfl, rfl, (List.append_nil _).symm, id⟩
  | cons a found ih =>
    have hgoesOn : (delivery.tell listener a).2 = true := hstops _ a
    obtain ⟨hmore, hcount, hheard, hraised⟩ := ih (delivery.tell listener a).1
    rw [deliver]
    dsimp only
    rw [if_pos hgoesOn]
    exact ⟨hmore, hcount.trans (Nat.add_right_comm _ _ _),
      hheard.trans (delivery.hearing.toList_hear_append a found),
      fun h => hraised (delivery.hearing.raised_call a h)⟩

/-- The flag is up when the batch that holds call `k` is delivered. -/
theorem raised_deliver_of_cancelsAt (hcancels : listener.CancelsAt k)
    (hstops : listener.NeverStops) (delivery : Delivery α) {found : List α}
    (hlt : left < found.length) (hk : delivery.hearing.heard.size + left + 1 = k) :
    (deliver listener delivery found).1.hearing.signal.raised = true := by
  induction found generalizing left delivery with
  | nil => exact absurd hlt (Nat.not_lt_zero left)
  | cons a found ih =>
    have hgoesOn : (delivery.tell listener a).2 = true := hstops _ a
    rw [deliver, if_pos hgoesOn]
    cases left with
    | zero =>
      refine (deliver_of_goesOn hstops _ found).2.2.2 ?_
      exact delivery.hearing.raised_call_of_cancelsAt a hcancels hk
    | succ left =>
      exact ih (delivery.tell listener a).1 (Nat.lt_of_succ_lt_succ hlt)
        (delivery.hearing.size_hear_add a hk)

end Delivery

/-! ## Candidates verified as they are met -/

section Meet

variable (verifier : Verifier) (documents : DocumentTable) {listener : Listener VerifiedPair}
  {k left : Nat}

/-- Once the flag is set, no candidate is verified. -/
theorem handOver_meet_of_isSet {delivery : Delivery VerifiedPair}
    (hset : delivery.hearing.signal.isSet = true) (pairs : List DocumentPair) :
    let final := (handOver (meet verifier documents listener) delivery pairs).1
    final.delivered = delivery.delivered ∧ final.hearing.heard = delivery.hearing.heard := by
  cases pairs with
  | nil => exact ⟨rfl, rfl⟩
  | cons pair pairs =>
    rw [handOver, meet, if_pos hset]
    exact ⟨rfl, rfl⟩

/-- After the last candidate no more is asked for, or the flag is set. -/
theorem handOver_meet_of_ended (delivery : Delivery VerifiedPair) (pair : DocumentPair)
    (hended : (meet verifier documents listener delivery pair).2 = false
      ∨ (meet verifier documents listener delivery pair).1.hearing.signal.isSet = true)
    (pairs : List DocumentPair) :
    let final := (handOver (meet verifier documents listener) delivery (pair :: pairs)).1
    let met := (meet verifier documents listener delivery pair).1
    final.delivered = met.delivered ∧ final.hearing.heard = met.hearing.heard := by
  rw [handOver]
  dsimp only
  split
  · next hmore =>
    have hset := hended.resolve_left (Bool.not_eq_false _ ▸ hmore)
    exact handOver_meet_of_isSet verifier documents hset pairs
  · exact ⟨rfl, rfl⟩

/-- **Candidates are verified as they are met**, until the run is ended. -/
theorem handOver_meet_of_endsAt (hends : listener.EndsAt k) (delivery : Delivery VerifiedPair)
    (hsignal : delivery.hearing.signal.Silent)
    (hk : delivery.hearing.heard.size + left + 1 = k) (pairs : List DocumentPair) :
    let final := (handOver (meet verifier documents listener) delivery pairs).1
    let found := (pairs.filterMap (verifier.verify? documents)).take (left + 1)
    final.delivered = delivery.delivered + found.length
      ∧ final.hearing.heard.toList = delivery.hearing.heard.toList ++ found := by
  induction pairs generalizing left delivery with
  | nil => exact ⟨rfl, (List.append_nil _).symm⟩
  | cons pair pairs ih =>
    cases hverify : verifier.verify? documents pair with
    | none =>
      rw [List.filterMap_cons_none hverify,
        handOver_cons (meet_of_none verifier documents hsignal hverify)]
      exact ih delivery.afterReading hsignal.afterReading hk
    | some verified =>
      have hmeet : meet verifier documents listener delivery pair
          = delivery.afterReading.tell listener verified :=
        meet_of_some verifier documents hsignal hverify
      rw [List.filterMap_cons_some hverify, List.take_succ_cons]
      cases left with
      | zero =>
        have hlast := delivery.afterReading.hearing.call_of_endsAt verified hends hk
        obtain ⟨hcount, hheard⟩ := handOver_meet_of_ended verifier documents delivery pair
          (by rw [hmeet]; exact hlast) pairs
        rw [hmeet] at hcount hheard
        exact ⟨hcount,
          (congrArg Array.toList hheard).trans (delivery.hearing.toList_hear verified)⟩
      | succ left =>
        have hcall := delivery.afterReading.hearing.call_of_calm verified hends.calm hk
        rw [Delivery.tell, hcall] at hmeet
        obtain ⟨hcount, hheard⟩ := ih
          ⟨delivery.delivered + 1, delivery.afterReading.hearing.hear verified⟩
          hsignal.afterReading (delivery.hearing.size_hear_add verified hk)
        rw [handOver_cons hmeet]
        exact ⟨hcount.trans (Nat.add_right_comm _ _ _),
          hheard.trans (delivery.hearing.toList_hear_append verified _)⟩

end Meet

/-! ## Batches -/

/-- **The batches up to result `k`** — `done` are the first of `parts`, and result `k` is in the
last of them; if there are not as many results, `done` are all. -/
def EndsWithResult (verifier : Verifier) (documents : DocumentTable) (k : Nat)
    (parts done : List (List DocumentPair)) : Prop :=
  ∃ rest, parts = done ++ rest
    ∧ ((rest = [] ∧ (done.flatMap (verifier.verifyAll documents)).length < k)
      ∨ ∃ init last, done = init ++ [last]
        ∧ (init.flatMap (verifier.verifyAll documents)).length < k
        ∧ k ≤ (done.flatMap (verifier.verifyAll documents)).length)

namespace EndsWithResult

variable {verifier : Verifier} {documents : DocumentTable} {left : Nat}
  {pairs : List DocumentPair} {parts done : List (List DocumentPair)}

/-- Result `left + 1` is in the first batch. -/
theorem singleton (hlt : left < (verifier.verifyAll documents pairs).length)
    (parts : List (List DocumentPair)) :
    EndsWithResult verifier documents (left + 1) (pairs :: parts) [pairs] :=
  ⟨parts, rfl, Or.inr ⟨[], pairs, rfl, Nat.succ_pos left, by rwa [List.flatMap_singleton]⟩⟩

/-- Result `left + 1` is behind the first batch. -/
theorem cons (hle : (verifier.verifyAll documents pairs).length ≤ left)
    (h : EndsWithResult verifier documents
      (left - (verifier.verifyAll documents pairs).length + 1) parts done) :
    EndsWithResult verifier documents (left + 1) (pairs :: parts) (pairs :: done) := by
  have hlength : ∀ parts, ((pairs :: parts).flatMap (verifier.verifyAll documents)).length
      = (verifier.verifyAll documents pairs).length
        + (parts.flatMap (verifier.verifyAll documents)).length := fun parts => by
    rw [List.flatMap_cons, List.length_append]
  obtain ⟨rest, rfl, ⟨hrest, hlt⟩ | ⟨init, last, rfl, hbefore, hafter⟩⟩ := h
  · exact ⟨rest, rfl, Or.inl ⟨hrest, by rw [hlength]; omega⟩⟩
  · exact ⟨rest, rfl, Or.inr ⟨pairs :: init, last, rfl, by rw [hlength]; omega,
      by rw [hlength]; omega⟩⟩

/-- Only the first batch is done if it has a result and nothing is told after the first one. -/
theorem eq_singleton (hpos : 0 < (verifier.verifyAll documents pairs).length)
    (h : EndsWithResult verifier documents 1 (pairs :: parts) done) : done = [pairs] := by
  obtain ⟨rest, hparts, ⟨rfl, hfew⟩ | ⟨init, last, rfl, hbefore, -⟩⟩ := h
  · rw [List.append_nil] at hparts
    rw [← hparts, List.flatMap_cons, List.length_append] at hfew
    omega
  · cases init with
    | nil => exact congrArg (fun first => [first]) (List.cons.inj hparts).1.symm
    | cons first init =>
      obtain rfl : pairs = first := (List.cons.inj hparts).1
      rw [List.flatMap_cons, List.length_append] at hbefore
      omega

end EndsWithResult

section Batches

variable {documents : DocumentTable} (batch : Batching) (plan : BatchPlan) {k left : Nat}

/-- Once the flag is set, no update is told. -/
theorem updatesFrom_of_isSet (listener : Listener Progress) (total processed delivered : Nat)
    {hearing : Hearing Progress} (hset : hearing.signal.isSet = true)
    (parts : List (List DocumentPair)) :
    let final :=
      (batch.updatesFrom plan documents listener total processed delivered hearing parts).value
    final.delivered = delivered ∧ final.hearing.heard = hearing.heard := by
  cases parts with
  | nil => exact ⟨rfl, rfl⟩
  | cons pairs parts =>
    rw [updatesFrom, if_pos hset]
    exact ⟨rfl, rfl⟩

/-- After the last update nothing is told and nothing is counted. -/
theorem updatesFrom_of_ended (listener : Listener Progress) (total processed delivered : Nat)
    {told : Hearing Progress × Bool} (hended : told.2 = false ∨ told.1.signal.isSet = true)
    (parts : List (List DocumentPair)) :
    let final : Delivery Progress :=
      if told.2 then (batch.updatesFrom plan documents listener total processed delivered told.1
        parts).value
      else ⟨delivered, told.1⟩
    final.delivered = delivered ∧ final.hearing.heard = told.1.heard := by
  dsimp only
  split
  · next hmore =>
    exact batch.updatesFrom_of_isSet plan listener total processed delivered
      (hended.resolve_left (Bool.not_eq_false _ ▸ hmore)) parts
  · exact ⟨rfl, rfl⟩

/-- Once the flag is set, no mark is told and nothing is collected. -/
theorem collectFrom_of_isSet (listener : Listener (Nat × Nat)) (total processed : Nat)
    {hearing : Hearing (Nat × Nat)} (hset : hearing.signal.isSet = true)
    (parts : List (List DocumentPair)) :
    let outcome :=
      (batch.collectFrom plan documents listener total processed hearing parts).value
    outcome.pairs = [] ∧ outcome.hearing.heard = hearing.heard := by
  cases parts with
  | nil => exact ⟨rfl, rfl⟩
  | cons pairs parts =>
    rw [collectFrom, if_pos hset]
    exact ⟨rfl, rfl⟩

/-- Once the flag is set, no result is delivered. -/
theorem resultsFrom_of_isSet (listener : Listener VerifiedPair) (processed : Nat)
    {delivery : Delivery VerifiedPair} (hset : delivery.hearing.signal.isSet = true)
    (parts : List (List DocumentPair)) :
    let final := (batch.resultsFrom plan documents listener processed delivery parts).value
    final.delivered = delivery.delivered ∧ final.hearing.heard = delivery.hearing.heard := by
  cases parts with
  | nil => exact ⟨rfl, rfl⟩
  | cons pairs parts =>
    rw [resultsFrom, if_pos hset]
    exact ⟨rfl, rfl⟩

variable (hown : documents.Own)

include hown

/-- **Updates are told** until the run is ended. -/
theorem updatesFrom_of_endsAt {listener : Listener Progress} (hends : listener.EndsAt k)
    (total processed delivered : Nat) (hearing : Hearing Progress)
    (hsignal : hearing.signal.Silent) (hk : hearing.heard.size + left + 1 = k)
    (parts : List (List DocumentPair)) :
    let final :=
      (batch.updatesFrom plan documents listener total processed delivered hearing parts).value
    let told := (updatesAbout batch.spread.verifier documents total processed delivered
      parts).take (left + 1)
    final.delivered = delivered + (told.map fun update => update.fresh.length).sum
      ∧ final.hearing.heard.toList = hearing.heard.toList ++ told := by
  induction parts generalizing left processed delivered hearing with
  | nil => exact ⟨rfl, (List.append_nil _).symm⟩
  | cons pairs parts ih =>
    obtain ⟨signal, hsilent, hrun⟩ := updatesFrom_cons hown batch plan listener total processed
      delivered hearing hsignal pairs parts
    dsimp only at hrun
    rw [hrun, updatesAbout_cons, List.take_succ_cons]
    cases left with
    | zero =>
      obtain ⟨hcount, hheard⟩ := batch.updatesFrom_of_ended plan listener total
        (processed + pairs.length)
        (delivered + (batch.spread.verifier.verifyAll documents pairs).length)
        (Hearing.call_of_endsAt ⟨hearing.heard, signal⟩ (updateAbout batch.spread.verifier
          documents total processed delivered pairs) hends hk) parts
      exact ⟨hcount, (congrArg Array.toList hheard).trans (hearing.toList_hear _)⟩
    | succ left =>
      obtain ⟨hcount, hheard⟩ := ih (processed + pairs.length)
        (delivered + (batch.spread.verifier.verifyAll documents pairs).length)
        (Hearing.hear ⟨hearing.heard, signal⟩ _) hsilent (hearing.size_hear_add _ hk)
      rw [Hearing.call_of_calm ⟨hearing.heard, signal⟩ _ hends.calm hk, if_pos rfl]
      refine ⟨hcount.trans ?_, hheard.trans (hearing.toList_hear_append _ _)⟩
      rw [List.map_cons, List.sum_cons, Nat.add_assoc]
      rfl

/-- **Marks are told and pairs collected** until the flag is raised. -/
theorem collectFrom_of_cancelsAt {listener : Listener (Nat × Nat)}
    (hcancels : listener.CancelsAt k) (total processed : Nat) (hearing : Hearing (Nat × Nat))
    (hsignal : hearing.signal.Silent) (hk : hearing.heard.size + left + 1 = k)
    (parts : List (List DocumentPair)) :
    let outcome :=
      (batch.collectFrom plan documents listener total processed hearing parts).value
    outcome.pairs = (parts.take (left + 1)).flatMap (batch.spread.verifier.verifyAll documents)
      ∧ outcome.hearing.heard.toList = hearing.heard.toList
        ++ ((countsFrom processed parts).map (·, total)).take (left + 1) := by
  induction parts generalizing left processed hearing with
  | nil => exact ⟨rfl, (List.append_nil _).symm⟩
  | cons pairs parts ih =>
    obtain ⟨signal, hsilent, hrun⟩ :=
      collectFrom_cons hown batch plan listener total processed hearing hsignal pairs parts
    dsimp only at hrun
    rw [hrun, countsFrom, List.map_cons, List.take_succ_cons, List.take_succ_cons,
      List.flatMap_cons]
    cases left with
    | zero =>
      obtain ⟨hlater, hheard⟩ := batch.collectFrom_of_isSet plan listener total
        (processed + pairs.length) (Signal.isSet_of_raised
          (Hearing.raised_call_of_cancelsAt ⟨hearing.heard, signal⟩ _ hcancels hk)) parts
      exact ⟨congrArg _ hlater, (congrArg Array.toList hheard).trans (hearing.toList_hear _)⟩
    | succ left =>
      rw [Hearing.call_of_waits ⟨hearing.heard, signal⟩ _
        (hcancels.waits _ _ (show hearing.heard.size + 1 < k by omega))]
      obtain ⟨hlater, hheard⟩ := ih (processed + pairs.length)
        (Hearing.hear ⟨hearing.heard, signal⟩ _) hsilent (hearing.size_hear_add _ hk)
      exact ⟨congrArg _ hlater, hheard.trans (hearing.toList_hear_append _ _)⟩

/-- A batch whose results come before call `k` is delivered in full. -/
theorem resultsFrom_cons_of_calm {listener : Listener VerifiedPair} (hcalm : listener.CalmBefore k)
    (processed : Nat) (delivery : Delivery VerifiedPair)
    (hsignal : delivery.hearing.signal.Silent) {pairs : List DocumentPair}
    (hle : (batch.spread.verifier.verifyAll documents pairs).length ≤ left)
    (hk : delivery.hearing.heard.size + left + 1 = k) (parts : List (List DocumentPair)) :
    ∃ signal : Signal, signal.Silent
      ∧ (batch.resultsFrom plan documents listener processed delivery (pairs :: parts)).value
        = (batch.resultsFrom plan documents listener (processed + pairs.length)
          (delivery.extended signal (batch.spread.verifier.verifyAll documents pairs))
          parts).value := by
  obtain ⟨signal, hsilent, hrun⟩ :=
    resultsFrom_cons hown batch plan listener processed delivery hsignal pairs parts
  refine ⟨signal, hsilent, hrun.trans ?_⟩
  rw [deliver_of_calm hcalm ⟨delivery.delivered, delivery.hearing.heard, signal⟩ hle hk,
    if_pos rfl]
  rfl

/-- **Results are delivered** until the listener declines. -/
theorem resultsFrom_of_stopsAt {listener : Listener VerifiedPair} (hstops : listener.StopsAt k)
    (processed : Nat) (delivery : Delivery VerifiedPair)
    (hsignal : delivery.hearing.signal.Silent)
    (hk : delivery.hearing.heard.size + left + 1 = k) (parts : List (List DocumentPair)) :
    let final := (batch.resultsFrom plan documents listener processed delivery parts).value
    let told :=
      (parts.flatMap (batch.spread.verifier.verifyAll documents)).take (left + 1)
    final.delivered = delivery.delivered + told.length
      ∧ final.hearing.heard.toList = delivery.hearing.heard.toList ++ told := by
  induction parts generalizing left processed delivery with
  | nil => exact ⟨rfl, (List.append_nil _).symm⟩
  | cons pairs parts ih =>
    rw [List.flatMap_cons]
    rcases Nat.lt_or_ge left (batch.spread.verifier.verifyAll documents pairs).length
      with hlt | hle
    · obtain ⟨signal, -, hrun⟩ :=
        resultsFrom_cons hown batch plan listener processed delivery hsignal pairs parts
      obtain ⟨hend, hcount, hheard⟩ :=
        deliver_of_stopsAt hstops ⟨delivery.delivered, delivery.hearing.heard, signal⟩ hlt hk
      dsimp only at hrun
      rw [hrun, hend, List.take_append_of_le_length hlt]
      exact ⟨hcount.trans (by rw [List.length_take, Nat.min_eq_left hlt]), hheard⟩
    · obtain ⟨signal, hsilent, hrun⟩ := resultsFrom_cons_of_calm batch plan hown hstops.calm
        processed delivery hsignal hle hk parts
      obtain ⟨hcount, hheard⟩ := ih (processed + pairs.length) (delivery.extended signal _) hsilent
        (delivery.size_extended signal hle hk)
      have hrest : left + 1 - (batch.spread.verifier.verifyAll documents pairs).length
          = left - (batch.spread.verifier.verifyAll documents pairs).length + 1 := by omega
      rw [hrun, List.take_append, List.take_of_length_le (Nat.le_succ_of_le hle), hrest]
      refine ⟨hcount.trans ?_, hheard.trans ?_⟩
      · rw [List.length_append, ← Nat.add_assoc]
        rfl
      · rw [Delivery.toList_extended, List.append_assoc]

/-- **Results are delivered up to the end of the batch** in which the flag is raised. -/
theorem resultsFrom_of_cancelsAt {listener : Listener VerifiedPair}
    (hcancels : listener.CancelsAt k) (hstops : listener.NeverStops) (processed : Nat)
    (delivery : Delivery VerifiedPair) (hsignal : delivery.hearing.signal.Silent)
    (hk : delivery.hearing.heard.size + left + 1 = k) (parts : List (List DocumentPair)) :
    let final := (batch.resultsFrom plan documents listener processed delivery parts).value
    ∃ done, EndsWithResult batch.spread.verifier documents (left + 1) parts done
      ∧ final.hearing.heard.toList = delivery.hearing.heard.toList
        ++ done.flatMap (batch.spread.verifier.verifyAll documents) := by
  induction parts generalizing left processed delivery with
  | nil => exact ⟨[], ⟨[], rfl, Or.inl ⟨rfl, Nat.succ_pos left⟩⟩, (List.append_nil _).symm⟩
  | cons pairs parts ih =>
    rcases Nat.lt_or_ge left (batch.spread.verifier.verifyAll documents pairs).length
      with hlt | hle
    · -- the flag goes up in this batch, which is the last one
      obtain ⟨signal, -, hrun⟩ :=
        resultsFrom_cons hown batch plan listener processed delivery hsignal pairs parts
      obtain ⟨hmore, -, hheard, -⟩ := deliver_of_goesOn hstops
        ⟨delivery.delivered, delivery.hearing.heard, signal⟩
        (batch.spread.verifier.verifyAll documents pairs)
      obtain ⟨-, hsame⟩ := batch.resultsFrom_of_isSet plan listener (processed + pairs.length)
        (Signal.isSet_of_raised (raised_deliver_of_cancelsAt hcancels hstops
          ⟨delivery.delivered, delivery.hearing.heard, signal⟩ hlt hk)) parts
      dsimp only at hrun
      rw [hrun, if_pos hmore]
      exact ⟨[pairs], EndsWithResult.singleton hlt parts, by
        rw [hsame, hheard, List.flatMap_singleton]⟩
    · obtain ⟨signal, hsilent, hrun⟩ := resultsFrom_cons_of_calm batch plan hown
        (hcancels.endsAt hstops).calm processed delivery hsignal hle hk parts
      obtain ⟨done, hdone, hheard⟩ := ih (processed + pairs.length)
        (delivery.extended signal _) hsilent (delivery.size_extended signal hle hk)
      rw [hrun]
      refine ⟨pairs :: done, hdone.cons hle, hheard.trans ?_⟩
      rw [Delivery.toList_extended, List.append_assoc, List.flatMap_cons]

end Batches

/-! ## Whole runs -/

section Runs

variable {documents : DocumentTable} (hown : documents.Own) (batch : Batching)
  (plan plan' : BatchPlan) {signal : Signal} (hsignal : signal.Silent) {k : Nat} (hk : 0 < k)
  (pairs : List DocumentPair)

include hown hsignal hk

/-- **Updates of an ended run** are the first ones of the whole run. -/
theorem updates_of_endsAt {listener : Listener Progress} (hends : listener.EndsAt k) :
    let whole := (batch.updates plan documents Listener.patient signal pairs).value
    let final := (batch.updates plan' documents listener signal pairs).value
    final.hearing.heard.toList = whole.hearing.heard.toList.take k
      ∧ final.delivered
        = ((whole.hearing.heard.toList.take k).map fun update => update.fresh.length).sum := by
  obtain ⟨left, rfl⟩ := Nat.exists_eq_add_one_of_ne_zero hk.ne'
  rcases eq_or_ne pairs [] with rfl | hpairs
  · simp [updates, Hearing.call]
  · have hempty := mt List.isEmpty_iff.mp hpairs
    obtain ⟨-, hwhole⟩ := updatesFrom_of_silent hown batch plan Listener.neverCancels_patient
      Listener.neverStops_patient pairs.length 0 0 { signal := signal } hsignal
      (batches batch.batchSize pairs)
    obtain ⟨hcount, hheard⟩ := batch.updatesFrom_of_endsAt plan' hown hends pairs.length 0 0
      { signal := signal } hsignal (Hearing.size_fresh_add _ left)
      (batches batch.batchSize pairs)
    rw [updates, updates, if_neg hempty, if_neg hempty]
    dsimp only
    rw [hwhole]
    exact ⟨hheard, hcount.trans (Nat.zero_add _)⟩

/-- **Results delivered before the listener declines** are the first ones of the whole run. -/
theorem results_of_stopsAt {listener : Listener VerifiedPair} (hstops : listener.StopsAt k) :
    let whole := (batch.results plan documents Listener.patient signal pairs).value
    let final := (batch.results plan' documents listener signal pairs).value
    final.hearing.heard.toList = whole.hearing.heard.toList.take k
      ∧ final.delivered = (whole.hearing.heard.toList.take k).length := by
  obtain ⟨left, rfl⟩ := Nat.exists_eq_add_one_of_ne_zero hk.ne'
  obtain ⟨-, hwhole⟩ := resultsFrom_of_silent hown batch plan Listener.neverCancels_patient
    Listener.neverStops_patient 0 { hearing := { signal := signal } } hsignal
    (batches batch.batchSize pairs)
  obtain ⟨hcount, hheard⟩ := batch.resultsFrom_of_stopsAt plan' hown hstops 0
    { hearing := { signal := signal } } hsignal (Hearing.size_fresh_add _ left)
    (batches batch.batchSize pairs)
  rw [results, results]
  dsimp only
  rw [hwhole]
  exact ⟨hheard, hcount.trans (Nat.zero_add _)⟩

/-- **Results delivered before the flag is seen** are those of the batches up to result `k`. -/
theorem results_of_cancelsAt {listener : Listener VerifiedPair} (hcancels : listener.CancelsAt k)
    (hstops : listener.NeverStops) :
    let whole := (batch.results plan documents Listener.patient signal pairs).value
    let final := (batch.results plan' documents listener signal pairs).value
    let parts := batches batch.batchSize pairs
    whole.hearing.heard.toList = parts.flatMap (batch.spread.verifier.verifyAll documents)
      ∧ ∃ done, EndsWithResult batch.spread.verifier documents k parts done
        ∧ final.hearing.heard.toList
          = done.flatMap (batch.spread.verifier.verifyAll documents) := by
  obtain ⟨left, rfl⟩ := Nat.exists_eq_add_one_of_ne_zero hk.ne'
  obtain ⟨-, hwhole⟩ := resultsFrom_of_silent hown batch plan Listener.neverCancels_patient
    Listener.neverStops_patient 0 { hearing := { signal := signal } } hsignal
    (batches batch.batchSize pairs)
  exact ⟨hwhole, batch.resultsFrom_of_cancelsAt plan' hown hcancels hstops 0
    { hearing := { signal := signal } } hsignal (Hearing.size_fresh_add _ left)
    (batches batch.batchSize pairs)⟩

/-- **Marks told before the flag is raised** are the first ones of the whole run, and what is
collected is what their pairs give. -/
theorem collect_of_cancelsAt (hsize : 0 < batch.batchSize) {listener : Listener (Nat × Nat)}
    (hcancels : listener.CancelsAt k) :
    let whole := (batch.collect plan documents Listener.patient signal pairs).value
    let final := (batch.collect plan' documents listener signal pairs).value
    final.hearing.heard.toList = whole.hearing.heard.toList.take k
      ∧ final.pairs
        = batch.spread.verifier.verifyAll documents (pairs.take (k * batch.batchSize)) := by
  obtain ⟨left, rfl⟩ := Nat.exists_eq_add_one_of_ne_zero hk.ne'
  obtain ⟨-, hwhole⟩ := collectFrom_of_silent hown batch plan Listener.neverCancels_patient
    pairs.length 0 { signal := signal } hsignal (batches batch.batchSize pairs)
  obtain ⟨hcollected, hheard⟩ := batch.collectFrom_of_cancelsAt plan' hown hcancels pairs.length 0
    { signal := signal } hsignal (Hearing.size_fresh_add _ left)
    (batches batch.batchSize pairs)
  rw [take_batches hsize] at hcollected
  refine ⟨hheard.trans (congrArg (List.take _) hwhole.symm), ?_⟩
  rw [← sort_flatMap_verifyAll hown _ batch.batchSize, ← hcollected]
  rfl

end Runs

/-- **Candidates verified before the run is ended** are the first ones of the whole run. -/
theorem fromIndex_of_endsAt (verifier : Verifier) (documents : DocumentTable)
    (traversal : Index.Traversal) {signal : Signal} (hsignal : signal.Silent) {k : Nat}
    (hk : 0 < k) {listener : Listener VerifiedPair} (hends : listener.EndsAt k) :
    let whole := fromIndex verifier documents traversal Listener.patient signal
    let final := fromIndex verifier documents traversal listener signal
    final.hearing.heard.toList = whole.hearing.heard.toList.take k
      ∧ final.delivered = (whole.hearing.heard.toList.take k).length := by
  obtain ⟨left, rfl⟩ := Nat.exists_eq_add_one_of_ne_zero hk.ne'
  obtain ⟨-, hwhole⟩ := handOver_meet_of_silent verifier documents Listener.neverCancels_patient
    Listener.neverStops_patient { hearing := { signal := signal } } hsignal
    (Index.pairsMet traversal)
  obtain ⟨hcount, hheard⟩ := handOver_meet_of_endsAt verifier documents hends
    { hearing := { signal := signal } } hsignal (Hearing.size_fresh_add _ left)
    (Index.pairsMet traversal)
  rw [fromIndex, fromIndex, Index.streamPairs, Index.streamPairs]
  dsimp only
  rw [hwhole]
  exact ⟨hheard, hcount.trans (Nat.zero_add _)⟩

/-- **Candidates handed over before the listener declines** are the first ones that are met. -/
theorem streamPairs_of_stopsAt (traversal : Index.Traversal) {k : Nat} (hk : 0 < k)
    {listener : Listener DocumentPair} (hstops : listener.StopsAt k) :
    let whole := Index.streamPairs traversal (Hearing.call Listener.patient) {}
    let final := Index.streamPairs traversal (Hearing.call listener) {}
    final.1.heard.toList = whole.1.heard.toList.take k
      ∧ final.2 = (whole.1.heard.toList.take k).length := by
  obtain ⟨left, rfl⟩ := Nat.exists_eq_add_one_of_ne_zero hk.ne'
  intro whole final
  have hwhole : whole.1.heard.toList = Index.pairsMet traversal :=
    toList_handOver_patient {} (Index.pairsMet traversal)
  obtain ⟨hheard, hcount⟩ := handOver_call_of_stopsAt hstops {}
    (Hearing.size_fresh_add _ left) (Index.pairsMet traversal)
  rw [hwhole]
  exact ⟨hheard, hcount⟩

/-- **Interrupted runs tell a prefix** — let a listener end a run at its call `k`, and compare with
the run of a patient listener, for all candidates, documents and sizes of batches, however the
batches are shared out.  Updates are the first `k` of the patient run, and the count returned is
that of the pairs in them, whether the listener declines or raises the flag; so it is with results
straight from an index.  Results in batches and the candidates themselves end with call `k` if the
listener declines; if it raises the flag, results go on to the end of the batch that holds result
`k`.  Progress over batches can only be cancelled: then the first `k` marks are told, and the pairs
of the first `k` batches are collected. -/
theorem interrupted_runs_tell_prefix {table : DocumentTable} (hown : table.Own) (minimum : Float)
    (batchSize : Nat) (gate : Gate) (plan plan' : BatchPlan) (pairs : List DocumentPair)
    (traversal : Index.Traversal) {signal : Signal} (hsignal : signal.Silent) {k : Nat}
    (hk : 0 < k) :
    let verifier := Verifier.ofMinimum minimum
    let delivering := forDelivery minimum batchSize gate
    let progressing := forProgress minimum batchSize gate
    let size := max 1 batchSize
    (∀ listener : Listener Progress,
        listener.StopsAt k ∨ listener.CancelsAt k ∧ listener.NeverStops →
        let whole := (delivering.updates plan table Listener.patient signal pairs).value
        let first := whole.hearing.heard.toList.take k
        let final := (delivering.updates plan' table listener signal pairs).value
        final.hearing.heard.toList = first
          ∧ final.delivered = (first.map fun update => update.fresh.length).sum)
      ∧ (∀ listener : Listener VerifiedPair, listener.StopsAt k →
        let whole := (delivering.results plan table Listener.patient signal pairs).value
        let first := whole.hearing.heard.toList.take k
        let final := (delivering.results plan' table listener signal pairs).value
        final.hearing.heard.toList = first ∧ final.delivered = first.length)
      ∧ (∀ listener : Listener VerifiedPair, listener.CancelsAt k → listener.NeverStops →
        let whole := (delivering.results plan table Listener.patient signal pairs).value
        let final := (delivering.results plan' table listener signal pairs).value
        whole.hearing.heard.toList = (batches size pairs).flatMap (verifier.verifyAll table)
          ∧ ∃ done, EndsWithResult verifier table k (batches size pairs) done
            ∧ final.hearing.heard.toList = done.flatMap (verifier.verifyAll table))
      ∧ (∀ listener : Listener VerifiedPair,
        listener.StopsAt k ∨ listener.CancelsAt k ∧ listener.NeverStops →
        let whole := fromIndex verifier table traversal Listener.patient signal
        let first := whole.hearing.heard.toList.take k
        let final := fromIndex verifier table traversal listener signal
        final.hearing.heard.toList = first ∧ final.delivered = first.length)
      ∧ (∀ listener : Listener DocumentPair, listener.StopsAt k →
        let whole := Index.streamPairs traversal (Hearing.call Listener.patient) {}
        let first := whole.1.heard.toList.take k
        let final := Index.streamPairs traversal (Hearing.call listener) {}
        final.1.heard.toList = first ∧ final.2 = first.length)
      ∧ ∀ listener : Listener (Nat × Nat), listener.CancelsAt k →
        let whole := (progressing.collect plan table Listener.patient signal pairs).value
        let final := (progressing.collect plan' table listener signal pairs).value
        final.hearing.heard.toList = whole.hearing.heard.toList.take k
          ∧ final.pairs = verifier.verifyAll table (pairs.take (k * size)) := by
  intro verifier delivering progressing size
  exact ⟨fun _ hends => updates_of_endsAt hown delivering plan plan' hsignal hk pairs
      (Listener.EndsAt.of_either hends),
    fun _ => results_of_stopsAt hown delivering plan plan' hsignal hk pairs,
    fun _ => results_of_cancelsAt hown delivering plan plan' hsignal hk pairs,
    fun _ hends => fromIndex_of_endsAt verifier table traversal hsignal hk
      (Listener.EndsAt.of_either hends),
    fun _ => streamPairs_of_stopsAt traversal hk,
    fun _ => collect_of_cancelsAt hown progressing plan plan' hsignal hk pairs
      (Order.atLeastOne_pos batchSize)⟩

/-- Three candidates in batches of two, and a first call in the middle of the first batch: a
listener that declines there hears one result, one that raises the flag hears both of the batch.
Marks come between batches, so that raising the flag at the first mark leaves one batch
collected. -/
theorem interrupted_runs_tell_prefix_of_three :
    let table := DocumentTable.ofList Verifier.threeAlike
    let pairs : List DocumentPair := [⟨1, 2⟩, ⟨1, 3⟩, ⟨2, 3⟩]
    let plan : BatchPlan := fun _ => Schedule.dealt 2
    let stopping : Listener VerifiedPair := fun call _ => { goesOn := call != 1 }
    let cancelling : Listener VerifiedPair := fun call _ => { cancels := call == 1 }
    let marking : Listener (Nat × Nat) := fun call _ => { cancels := call == 1 }
    let delivering := forDelivery 0.5 2 Gate.closed
    let progressing := forProgress 0.5 2 Gate.closed
    let told (listener : Listener VerifiedPair) :=
      (delivering.results plan table listener Signal.quiet pairs).value
    let collected (listener : Listener (Nat × Nat)) :=
      (progressing.collect plan table listener Signal.quiet pairs).value
    table.Own ∧ Signal.quiet.Silent
      ∧ (told Listener.patient).hearing.heard.toList.map VerifiedPair.numbers = pairs
      ∧ stopping.StopsAt 1 ∧ (told stopping).delivered = 1
      ∧ (told stopping).hearing.heard.toList.map VerifiedPair.numbers = [⟨1, 2⟩]
      ∧ cancelling.CancelsAt 1 ∧ cancelling.NeverStops
      ∧ (told cancelling).hearing.heard.toList.map VerifiedPair.numbers = [⟨1, 2⟩, ⟨1, 3⟩]
      ∧ marking.CancelsAt 1
      ∧ (collected marking).hearing.heard.toList
        = (collected Listener.patient).hearing.heard.toList.take 1
      ∧ (collected marking).pairs.map VerifiedPair.numbers = [⟨1, 2⟩, ⟨1, 3⟩] := by
  intro table pairs plan stopping cancelling marking delivering progressing told collected
  have hown : table.Own := DocumentTable.own_ofList Verifier.threeAlike
  have hstops : stopping.StopsAt 1 := by
    refine ⟨fun call _ hlt => ?_, fun _ => rfl⟩
    obtain rfl := Nat.lt_one_iff.mp hlt
    rfl
  have hcancels : cancelling.CancelsAt 1 :=
    ⟨fun call _ hlt => beq_false_of_ne (Nat.ne_of_lt hlt), fun _ => rfl⟩
  have hmarks : marking.CancelsAt 1 :=
    ⟨fun call _ hlt => beq_false_of_ne (Nat.ne_of_lt hlt), fun _ => rfl⟩
  have hnever : cancelling.NeverStops := fun _ _ => rfl
  have hbatches : batches 2 pairs = [[⟨1, 2⟩, ⟨1, 3⟩], [⟨2, 3⟩]] := by cbv
  obtain ⟨-, hstopped, hcancelled, -, -, hcollected⟩ := interrupted_runs_tell_prefix hown 0.5 2
    Gate.closed plan plan pairs [] Signal.Silent.quiet Nat.one_pos
  obtain ⟨hfirst, hcount⟩ := hstopped stopping hstops
  obtain ⟨hwhole, done, hdone, hheard⟩ := hcancelled cancelling hcancels hnever
  obtain ⟨hmarked, hpairs⟩ := hcollected marking hmarks
  have hall : (told Listener.patient).hearing.heard.toList.map VerifiedPair.numbers = pairs := by
    have hparts := hwhole.trans (congrArg (List.flatMap _) hbatches)
    rw [List.flatMap_cons, List.flatMap_singleton] at hparts
    rw [hparts, List.map_append, Verifier.map_numbers_verifyAll_threeAlike (by decide),
      Verifier.map_numbers_verifyAll_threeAlike (by decide)]
    rfl
  have hdone : done = [[⟨1, 2⟩, ⟨1, 3⟩]] := by
    refine EndsWithResult.eq_singleton ?_ (hbatches ▸ hdone)
    rw [← List.length_map VerifiedPair.numbers,
      Verifier.map_numbers_verifyAll_threeAlike (by decide)]
    decide
  refine ⟨hown, Signal.Silent.quiet, hall, hstops, ?_, ?_, hcancels, hnever, ?_, hmarks, hmarked,
    ?_⟩
  · rw [hcount, ← List.length_map VerifiedPair.numbers, List.map_take, hall]
    rfl
  · rw [hfirst, List.map_take, hall]
    rfl
  · rw [hheard, hdone, List.flatMap_singleton,
      Verifier.map_numbers_verifyAll_threeAlike (by decide)]
  · rw [hpairs]
    exact Verifier.map_numbers_verifyAll_threeAlike (by decide)

end Batching

end CodeClones
