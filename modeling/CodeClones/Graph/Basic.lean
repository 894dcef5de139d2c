import CodeClones.Similarity.Overlap

/-!
# Graph/Basic — documents as nodes, verified pairs as edges

An undirected graph over the nodes `0, …, n - 1`.  It keeps the edges in the order in which they
were added, and for each node its neighbours in that order.
-/

namespace CodeClones

structure CloneGraph where
  neighbours : Array (Array Nat)
  edges : Array (Nat × Nat)
deriving Repr

namespace CloneGraph

/-- The graph without edges. -/
def empty (nodes : Nat) : CloneGraph where
  neighbours := Array.replicate nodes #[]
  edges := #[]

def nodeCount (graph : CloneGraph) : Nat :=
  graph.neighbours.size

def edgeCount (graph : CloneGraph) : Nat :=
  graph.edges.size

/-- May the edge be added?  Loops and unknown nodes are passed over. -/
def admits (graph : CloneGraph) (a b : Nat) : Bool :=
  a != b && decide (a < graph.nodeCount) && decide (b < graph.nodeCount)

/-- **Add an edge**, if it is admitted; the same edge may be added again. -/
def addEdge (graph : CloneGraph) (edge : Nat × Nat) : CloneGraph :=
  if graph.admits edge.1 edge.2 then
    { neighbours := (graph.neighbours.modify edge.1 (·.push edge.2)).modify edge.2 (·.push edge.1)
      edges := graph.edges.push edge }
  else graph

/-- The graph of some edges. -/
def ofEdges (nodes : Nat) (edges : List (Nat × Nat)) : CloneGraph :=
  edges.foldl addEdge (empty nodes)

@[simp] theorem nodeCount_addEdge (graph : CloneGraph) (edge : Nat × Nat) :
    (graph.addEdge edge).nodeCount = graph.nodeCount := by
  unfold addEdge
  split <;> simp [nodeCount]

/-- The neighbours of a node, in the order in which its edges were added. -/
def neighboursOf (graph : CloneGraph) (node : Nat) : Array Nat :=
  graph.neighbours[node]?.getD #[]

def degree (graph : CloneGraph) (node : Nat) : Nat :=
  (graph.neighboursOf node).size

/-- The degrees of all nodes. -/
def degrees (graph : CloneGraph) : List Nat :=
  graph.neighbours.toList.map Array.size

/-- Figures about a graph. -/
structure Statistics where
  nodes : Nat
  edges : Nat
  meanDegree : Float
  largestDegree : Nat
  isolated : Nat

def statistics (graph : CloneGraph) : Statistics where
  nodes := graph.nodeCount
  edges := graph.edgeCount
  meanDegree := (Overlap.mk (graph.degrees.foldl (· + ·) 0) graph.nodeCount).toFloat
  largestDegree := graph.degrees.foldl Nat.max 0
  isolated := graph.degrees.countP (· == 0)

end CloneGraph

end CodeClones
