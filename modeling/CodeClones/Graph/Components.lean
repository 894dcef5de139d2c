import CodeClones.Graph.Basic

/-!
# Graph/Components — connected components by search

From each node that is not visited yet, everything that can be reached is collected.  Components are
listed with ascending members, by smallest member, and only if they have at least two nodes.
-/

namespace CodeClones

/-- A node that is visited for the first time leaves fewer that are not. -/
theorem count_visit_lt (visited : Array Bool) (node : Nat) (h : visited[node]? = some false) :
    (visited.setIfInBounds node true).count false < visited.count false := by
  obtain ⟨hlt, hfalse⟩ := Array.getElem?_eq_some_iff.mp h
  have hmem : false ∈ visited := hfalse ▸ Array.getElem_mem hlt
  have hpos : 0 < visited.count false := Array.count_pos_iff.mpr hmem
  rw [Array.setIfInBounds_def, dif_pos hlt, Array.count_set hlt, hfalse]
  rw [if_pos BEq.rfl, if_neg (by decide)]
  omega

namespace CloneGraph

/-- **Search** — take nodes from the list of work; a node not visited before is marked and adds its
neighbours to the work. -/
def explore (graph : CloneGraph) (visited : Array Bool) (found : List Nat) :
    List Nat → Array Bool × List Nat
  | [] => (visited, found)
  | node :: work =>
    if _fresh : visited[node]? = some false then
      explore graph (visited.setIfInBounds node true) (node :: found)
        ((graph.neighboursOf node).toList ++ work)
    else explore graph visited found work
termination_by work => (visited.count false, work.length)
decreasing_by
  · exact Prod.Lex.left _ _ (count_visit_lt visited node _fresh)
  · exact Prod.Lex.right _ (Nat.lt_succ_self _)

/-- Nodes in ascending order. -/
def ascendingNodes (nodes : List Nat) : List Nat :=
  nodes.mergeSort fun a b => decide (a ≤ b)

/-- **Components in order** — members ascending, components by smallest member, single nodes left
out. -/
def arrange (components : List (List Nat)) : List (List Nat) :=
  ((components.map ascendingNodes).filter fun c => decide (2 ≤ c.length)).mergeSort
    fun a b => decide (a.head?.getD 0 ≤ b.head?.getD 0)

/-- The state of the scan over all nodes: who is visited, and the components found. -/
structure Exploration where
  visited : Array Bool
  components : List (List Nat)

/-- Start a search at a node unless it is visited already or has no edges. -/
def Exploration.next (graph : CloneGraph) (state : Exploration) (node : Nat) : Exploration :=
  if state.visited[node]? = some false ∧ graph.degree node ≠ 0 then
    let (visited, found) := graph.explore state.visited [] [node]
    ⟨visited, found :: state.components⟩
  else state

/-- **The connected components.** -/
def components (graph : CloneGraph) : List (List Nat) :=
  arrange ((List.range graph.nodeCount).foldl (Exploration.next graph)
    ⟨Array.replicate graph.nodeCount false, []⟩).components

end CloneGraph

end CodeClones
