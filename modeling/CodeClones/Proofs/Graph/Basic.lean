import CodeClones.Graph.Basic
import Mathlib

/-!
# Proofs/Graph/Basic — the list of edges and the lists of neighbours show the same edges

A graph keeps its edges twice: in the order in which they were added, and at each of their ends.
`Represents` says that both show the admitted edges of a list, and nothing else.  Two nodes are
`Linked` if a path of admitted edges leads from one to the other.
-/

namespace CodeClones.CloneGraph

/-! ## Edges and paths -/

/-- **An admitted edge** — one of the list, between two different nodes of the graph. -/
def Joined (nodes : Nat) (edges : List (Nat × Nat)) (a b : Nat) : Prop :=
  (a, b) ∈ edges ∧ a ≠ b ∧ a < nodes ∧ b < nodes

/-- **Two nodes are linked** if one is reached from the other along admitted edges, taken in either
direction. -/
def Linked (nodes : Nat) (edges : List (Nat × Nat)) : Nat → Nat → Prop :=
  Relation.EqvGen (Joined nodes edges)

theorem linked_equivalence (nodes : Nat) (edges : List (Nat × Nat)) :
    Equivalence (Linked nodes edges) :=
  Relation.EqvGen.is_equivalence _

theorem joined_concat {nodes : Nat} {edges : List (Nat × Nat)} {edge : Nat × Nat} {a b : Nat} :
    Joined nodes (edges ++ [edge]) a b
      ↔ Joined nodes edges a b
        ∨ edge = (a, b) ∧ edge.1 ≠ edge.2 ∧ edge.1 < nodes ∧ edge.2 < nodes := by
  rw [Joined, Joined, List.mem_append, List.mem_singleton]
  constructor
  · rintro ⟨hmem | rfl, hends⟩
    · exact Or.inl ⟨hmem, hends⟩
    · exact Or.inr ⟨rfl, hends⟩
  · rintro (⟨hmem, hends⟩ | ⟨rfl, hends⟩)
    · exact ⟨Or.inl hmem, hends⟩
    · exact ⟨Or.inr rfl, hends⟩

/-- Linked nodes stay linked while edges are added. -/
theorem Linked.mono {nodes : Nat} {edges edges' : List (Nat × Nat)} {a b : Nat}
    (h : Linked nodes edges a b) (hsubset : edges ⊆ edges') : Linked nodes edges' a b :=
  Relation.EqvGen.mono (fun _ _ hjoined => ⟨hsubset hjoined.1, hjoined.2⟩) a b h

/-- Different nodes are linked only if each of them has an edge. -/
theorem Linked.eq_or_joined {nodes : Nat} {edges : List (Nat × Nat)} {a b : Nat}
    (h : Linked nodes edges a b) :
    a = b ∨ (∃ c, Joined nodes edges a c ∨ Joined nodes edges c a)
      ∧ ∃ c, Joined nodes edges b c ∨ Joined nodes edges c b := by
  induction h with
  | rel a b hab => exact Or.inr ⟨⟨b, Or.inl hab⟩, ⟨a, Or.inr hab⟩⟩
  | refl a => exact Or.inl rfl
  | symm a b _ ih => exact ih.imp Eq.symm And.symm
  | trans a b c _ _ ihab ihbc =>
    rcases ihab with rfl | ⟨ha, hb⟩
    · exact ihbc
    · rcases ihbc with rfl | ⟨-, hc⟩
      · exact Or.inr ⟨ha, hb⟩
      · exact Or.inr ⟨ha, hc⟩

/-! ## What a graph shows -/

/-- **A graph shows the admitted edges** of a list, in its list of edges and at both ends. -/
structure Represents (graph : CloneGraph) (nodes : Nat) (edges : List (Nat × Nat)) : Prop where
  nodeCount_eq : graph.nodeCount = nodes
  edge_iff : ∀ a b, (a, b) ∈ graph.edges ↔ Joined nodes edges a b
  neighbour_iff : ∀ a b, b ∈ graph.neighboursOf a ↔ Joined nodes edges a b ∨ Joined nodes edges b a

theorem represents_empty (nodes : Nat) : Represents (empty nodes) nodes [] where
  nodeCount_eq := Array.size_replicate
  edge_iff a b := by simp [empty, Joined]
  neighbour_iff a b := by
    have hnone : (empty nodes).neighboursOf a = #[] := by
      rw [neighboursOf, empty, Array.getElem?_replicate]
      split <;> rfl
    simp [hnone, Joined]

/-- The neighbours of a node after an edge is added at both its ends. -/
theorem mem_neighbours_modify {neighbours : Array (Array Nat)} {a b : Nat} (hne : a ≠ b)
    (ha : a < neighbours.size) (hb : b < neighbours.size) (x y : Nat) :
    y ∈ (((neighbours.modify a (·.push b)).modify b (·.push a))[x]?).getD #[]
      ↔ y ∈ (neighbours[x]?).getD #[] ∨ x = a ∧ y = b ∨ x = b ∧ y = a := by
  rw [Array.getElem?_modify, Array.getElem?_modify]
  by_cases hxb : b = x
  · subst hxb
    simp [hne, hne.symm, hb]
  · by_cases hxa : a = x
    · subst hxa
      simp [hxb, hne, ha]
    · simp [hxb, hxa, Ne.symm hxa, Ne.symm hxb]

/-- **Adding an edge** shows it if it is admitted. -/
theorem Represents.addEdge {graph : CloneGraph} {nodes : Nat} {edges : List (Nat × Nat)}
    (h : Represents graph nodes edges) (edge : Nat × Nat) :
    Represents (graph.addEdge edge) nodes (edges ++ [edge]) := by
  have hadmits : graph.admits edge.1 edge.2 = true
      ↔ edge.1 ≠ edge.2 ∧ edge.1 < nodes ∧ edge.2 < nodes := by
    rw [admits, h.nodeCount_eq]
    simp [and_assoc]
  rw [CloneGraph.addEdge]
  split
  · next hadmitted =>
    have hends := hadmits.mp hadmitted
    have hsize : graph.neighbours.size = nodes := h.nodeCount_eq
    refine ⟨by simpa [nodeCount] using hsize, fun a b => ?_, fun a b => ?_⟩
    · rw [Array.mem_push, h.edge_iff, joined_concat]
      exact or_congr_right ⟨fun heq => ⟨heq.symm, hends⟩, fun heq => heq.1.symm⟩
    · rw [neighboursOf, mem_neighbours_modify hends.1 (hsize ▸ hends.2.1) (hsize ▸ hends.2.2),
        ← neighboursOf, h.neighbour_iff, joined_concat, joined_concat]
      obtain ⟨x, y⟩ := edge
      simp only [Prod.mk.injEq]
      grind
  · next hrefused =>
    have hnot : ∀ a b, Joined nodes (edges ++ [edge]) a b ↔ Joined nodes edges a b := fun a b => by
      rw [joined_concat]
      exact or_iff_left fun heq => hrefused (hadmits.mpr heq.2)
    refine ⟨h.nodeCount_eq, fun a b => ?_, fun a b => ?_⟩
    · rw [h.edge_iff, hnot]
    · rw [h.neighbour_iff, hnot, hnot]

/-- **The graph of some edges** shows those that are admitted. -/
theorem represents_ofEdges (nodes : Nat) (edges : List (Nat × Nat)) :
    Represents (ofEdges nodes edges) nodes edges := by
  induction edges using List.reverseRecOn with
  | nil => exact represents_empty nodes
  | append_singleton edges edge ih =>
    rw [ofEdges, List.foldl_append]
    exact ih.addEdge edge

/-! ## Nodes with edges -/

section Represents

variable {graph : CloneGraph} {nodes : Nat} {edges : List (Nat × Nat)}
  (h : Represents graph nodes edges)

include h

theorem Represents.lt_of_mem_neighboursOf {a b : Nat} (hb : b ∈ graph.neighboursOf a) :
    b < nodes := by
  rcases (h.neighbour_iff a b).mp hb with hab | hba
  · exact hab.2.2.2
  · exact hba.2.2.1

theorem Represents.linked_of_mem_neighboursOf {a b : Nat} (hb : b ∈ graph.neighboursOf a) :
    Linked nodes edges a b := by
  rcases (h.neighbour_iff a b).mp hb with hab | hba
  · exact Relation.EqvGen.rel a b hab
  · exact (Relation.EqvGen.rel b a hba).symm

/-- **A node linked to another one** is a node of the graph and has neighbours. -/
theorem Represents.degree_ne_zero {a b : Nat} (hne : a ≠ b) (hab : Linked nodes edges a b) :
    a < nodes ∧ graph.degree a ≠ 0 := by
  obtain ⟨⟨c, hc⟩, -⟩ := hab.eq_or_joined.resolve_left hne
  have hmem : c ∈ graph.neighboursOf a := (h.neighbour_iff a c).mpr hc
  refine ⟨hc.elim (fun hac => hac.2.2.1) fun hca => hca.2.2.2, ?_⟩
  exact Nat.ne_of_gt (Array.size_pos_of_mem hmem)

end Represents

end CodeClones.CloneGraph
