import CodeClones.Graph.Forest

/-!
# Graph/Race — merging sets without locks

Several workers merge sets in one shared array of parents.  Each load and each compare-and-swap is
one step, and the steps of different workers may interleave in any way.  A worker that looks for a
root reads a parent and then the parent's parent, and tries to swing the link of the node past its
parent; losing that race is harmless.  A worker that links two roots retries from the start if the
larger one has meanwhile ceased to be a root.
-/

namespace CodeClones.Race

/-- Where a worker stands on its way to a root. -/
inductive Search where
  /-- About to load the parent of `node`. -/
  | atNode (node : Nat)
  /-- `parent` was loaded for `node`; about to load its parent in turn. -/
  | atParent (node parent : Nat)
  /-- About to swing the link of `node` from `parent` to `grand`. -/
  | halving (node parent grand : Nat)
deriving DecidableEq, Repr

/-- Where a worker stands while it merges the sets of an edge. -/
inductive Control where
  /-- Looking for the root of the first end. -/
  | first (search : Search)
  /-- The first root is known; looking for the root of the second end. -/
  | second (root : Nat) (search : Search)
  /-- About to link the larger root under the smaller one. -/
  | linking (low high : Nat)
deriving DecidableEq, Repr

/-- A worker: the edges it has still to take up, and the edge it is merging. -/
structure Worker where
  waiting : List (Nat × Nat)
  current : Option ((Nat × Nat) × Control)
deriving DecidableEq, Repr

/-- The shared parents and all workers. -/
structure Machine where
  parents : Array Nat
  workers : List Worker
deriving DecidableEq, Repr

/-- Load an entry; outside the array a node is its own parent. -/
def load (parents : Array Nat) (node : Nat) : Nat :=
  parents[node]?.getD node

/-- **Compare and swap** — the entry is replaced if it still holds what is expected. -/
def swap (parents : Array Nat) (node expected desired : Nat) : Array Nat :=
  if load parents node = expected then parents.setIfInBounds node desired else parents

/-- What a step of a search leads to: a further step, or the root. -/
inductive Outcome where
  | continues (search : Search)
  | root (node : Nat)
deriving DecidableEq, Repr

/-- **One step of a search.**  The swing past the parent may fail for no reason. -/
def Search.step (parents : Array Nat) (fails : Bool) : Search → Array Nat × Outcome
  | atNode node =>
    let parent := load parents node
    (parents, if parent = node then .root node else .continues (atParent node parent))
  | atParent node parent =>
    let grand := load parents parent
    (parents, .continues (if parent = grand then atNode grand else halving node parent grand))
  | halving node parent grand =>
    (if fails then parents else swap parents node parent grand, .continues (atNode grand))

/-- **One step of a merge**; no control left means that the merge is done. -/
def Control.step (edge : Nat × Nat) (parents : Array Nat) (fails : Bool) :
    Control → Array Nat × Option Control
  | first search =>
    match search.step parents fails with
    | (parents, .continues next) => (parents, some (first next))
    | (parents, .root root) => (parents, some (second root (.atNode edge.2)))
  | second a search =>
    match search.step parents fails with
    | (parents, .continues next) => (parents, some (second a next))
    | (parents, .root b) =>
      (parents, if a = b then none else some (linking (Nat.min a b) (Nat.max a b)))
  | linking low high =>
    if load parents high = high then (swap parents high high low, none)
    else (parents, some (first (.atNode edge.1)))

/-- One step of a worker: go on with its edge, or take up the next one. -/
def Worker.step (worker : Worker) (parents : Array Nat) (fails : Bool) : Array Nat × Worker :=
  match worker.current with
  | some (edge, control) =>
    let (parents, control) := control.step edge parents fails
    (parents, { worker with current := control.map fun c => (edge, c) })
  | none =>
    match worker.waiting with
    | [] => (parents, worker)
    | edge :: waiting => (parents, ⟨waiting, some (edge, .first (.atNode edge.1))⟩)

namespace Machine

/-- The workers with their shares of the edges, before the first step. -/
def start (size : Nat) (shares : List (List (Nat × Nat))) : Machine where
  parents := Array.range size
  workers := shares.map fun share => ⟨share, none⟩

/-- **One step of the machine** — the worker with the given number moves. -/
def step (machine : Machine) (move : Nat × Bool) : Machine :=
  match machine.workers[move.1]? with
  | some worker =>
    let (parents, worker) := worker.step machine.parents move.2
    { parents := parents, workers := machine.workers.set move.1 worker }
  | none => machine

/-- A course of moves: which worker, and whether its swing fails for no reason. -/
def run (machine : Machine) (moves : List (Nat × Bool)) : Machine :=
  moves.foldl step machine

/-- All merges have returned. -/
def isDone (machine : Machine) : Bool :=
  machine.workers.all fun worker => worker.waiting.isEmpty && worker.current.isNone

end Machine

end CodeClones.Race
