import CodeClones.Order.Positive

/-!
# Parallel/Workload — one way of sharing a loop among workers

A loop over `size` items is run by some workers.  Which worker takes which item, and when, is not
determined; a `Workload` is one possible course, given as the list of steps in the order of time.
The two ways in which workers hand in results are `fill`, where every item has its own slot, and
`merge`, where every worker collects a list of its own and the lists are joined at the end.
-/

namespace CodeClones.Parallel

/-- **One course of a shared loop** — each step is a worker together with the item it handles, and
every item is handled exactly once. -/
structure Workload (size : Nat) where
  workers : Nat
  steps : List (Nat × Nat)
  handled : (steps.map Prod.snd).Perm (List.range size)
  employed : ∀ step ∈ steps, step.1 < workers

namespace Workload

variable {size : Nat} {α : Type}

/-- The items in the order in which they are handled. -/
def order (load : Workload size) : List Nat :=
  load.steps.map Prod.snd

/-- Items are dealt out in turn, and each is handled when its turn comes. -/
def dealt (workers size : Nat) : Workload size where
  workers := Order.atLeastOne workers
  steps := (List.range size).map fun item => (item % Order.atLeastOne workers, item)
  handled := by
    rw [List.map_map]
    exact (List.map_id _).symm ▸ List.Perm.refl _
  employed := by
    intro step h
    obtain ⟨item, -, rfl⟩ := List.mem_map.mp h
    exact Nat.mod_lt _ (Order.atLeastOne_pos workers)

/-- **Slots** — the result for item `i` is written to place `i`. -/
def fill (load : Workload size) (blank : α) (result : Nat → α) : List α :=
  (load.order.foldl (fun slots item => slots.setIfInBounds item (result item))
    (Array.replicate size blank)).toList

/-- **Joined lists** — what each worker collected, in the order of its own steps, worker after
worker. -/
def merge (load : Workload size) (collected : List (Nat × α)) : List α :=
  (List.range load.workers).flatMap fun worker =>
    (collected.filter fun entry => entry.1 == worker).map Prod.snd

/-- Every item contributes a list; a worker appends what its items contribute. -/
def gather (load : Workload size) (result : Nat → List α) : List α :=
  load.merge (load.steps.flatMap fun step => (result step.2).map fun a => (step.1, a))

end Workload

/-- A course for every loop of a run, whatever its size. -/
structure Schedule where
  files : (size : Nat) → Workload size
  documents : (size : Nat) → Workload size
  bands : (size : Nat) → Workload size
  pairs : (size : Nat) → Workload size
  edges : (size : Nat) → Workload size

/-- Every loop is dealt out in turn. -/
def Schedule.dealt (workers : Nat) : Schedule where
  files := Workload.dealt workers
  documents := Workload.dealt workers
  bands := Workload.dealt workers
  pairs := Workload.dealt workers
  edges := Workload.dealt workers

end CodeClones.Parallel
