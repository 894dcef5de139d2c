import CodeClones.Graph.Components
import CodeClones.Log.Logged
import CodeClones.Parallel.Gate
import CodeClones.Parallel.Workload

/-!
# Graph/Forest — connected components by merging sets

A forest keeps for every node a parent that is not larger than the node itself, so the root of a
tree is its smallest node.  An edge links the larger of the two roots under the smaller one; on the
way to a root, every other link is shortened by one step.
-/

namespace CodeClones

open Log Parallel

/-- **Disjoint sets as trees** — parents are never larger than their children. -/
structure Forest where
  parents : Array Nat
  parent_le : ∀ node : Nat, parents[node]?.getD node ≤ node

namespace Forest

/-- Every node is a set of its own. -/
def singletons (size : Nat) : Forest where
  parents := Array.range size
  parent_le node := by
    by_cases h : node < size <;> simp [h]

/-- The parent of a node; a root, like a node out of range, is its own. -/
def parentOf (forest : Forest) (node : Nat) : Nat :=
  forest.parents[node]?.getD node

theorem parentOf_le (forest : Forest) (node : Nat) : forest.parentOf node ≤ node :=
  forest.parent_le node

/-- Give a node a parent that is not larger. -/
def link (forest : Forest) (node parent : Nat) (h : parent ≤ node) : Forest where
  parents := forest.parents.setIfInBounds node parent
  parent_le other := by
    by_cases hn : node = other
    · subst hn
      by_cases hlt : node < forest.parents.size
      · simpa [hlt] using h
      · simp [hlt]
    · rw [Array.getElem?_setIfInBounds_ne hn]
      exact forest.parent_le other

/-- **The root of a node** — go two links at a time, and let each node visited point past its
parent. -/
def find (forest : Forest) (node : Nat) : Nat × Forest :=
  if _isRoot : forest.parentOf node = node then (node, forest)
  else
    let parent := forest.parentOf node
    let grand := forest.parentOf parent
    if parent = grand then find forest grand
    else find (forest.link node grand
      (Nat.le_trans (forest.parentOf_le parent) (forest.parentOf_le node))) grand
termination_by node
decreasing_by
  all_goals
    exact Nat.lt_of_le_of_lt (forest.parentOf_le _)
      (Nat.lt_of_le_of_ne (forest.parentOf_le node) _isRoot)

/-- **Merge the sets of two nodes** — the larger root goes under the smaller one. -/
def unite (forest : Forest) (edge : Nat × Nat) : Forest :=
  let (a, forest) := forest.find edge.1
  let (b, forest) := forest.find edge.2
  if h : a ≤ b then
    if a = b then forest else forest.link b a h
  else forest.link a b (Nat.le_of_lt (Nat.lt_of_not_le h))

/-- Put a node into the list of its root. -/
def assign (state : Forest × Array (List Nat)) (node : Nat) : Forest × Array (List Nat) :=
  let (root, forest) := state.1.find node
  (forest, state.2.modify root (node :: ·))

/-- The members of each tree among some nodes, by root. -/
def members (forest : Forest) (size : Nat) (nodes : List Nat) : List (List Nat) :=
  (nodes.foldl assign (forest, Array.replicate size [])).2.toList

end Forest

namespace CloneGraph

/-- **Components by merging**, the edges being taken in the order given. -/
def componentsInOrder (graph : CloneGraph) (edges : List (Nat × Nat)) : List (List Nat) :=
  let forest := edges.foldl Forest.unite (Forest.singletons graph.nodeCount)
  let nodes := (List.range graph.nodeCount).filter fun node => graph.degree node != 0
  arrange (forest.members graph.nodeCount nodes)

/-- What merging by several workers says about itself. -/
def mergeReport (edges components : Nat) : Entry where
  level := .debug
  text := s!"union-find over {edges} edges: {components} components"

/-- **The connected components under a gate** — above its threshold several workers merge, taking
the edges in the order of their schedule; otherwise one worker searches. -/
def componentsUnder (graph : CloneGraph) (gate : Gate) (schedule : Schedule) :
    Logged (List (List Nat)) :=
  if gate.spreadsPairs graph.edgeCount then do
    let load := schedule.edges graph.edgeCount
    let found := graph.componentsInOrder (load.order.filterMap fun item => graph.edges[item]?)
    Logged.report (mergeReport graph.edgeCount found.length)
    return found
  else return graph.components

end CloneGraph

end CodeClones
