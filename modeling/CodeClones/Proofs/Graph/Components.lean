import CodeClones.Proofs.Graph.Basic
import CodeClones.Proofs.Graph.Classes

/-!
# Proofs/Graph/Components — the search finds the classes of linked nodes

While the search runs, every neighbour of a visited node is visited or still in the list of work
(`Closed`).  With no work left the visited nodes are closed under edges, hence hold every node
linked to one of them; and nothing is found that is not linked to the start.  The scan over all
nodes therefore finds the classes (`listsClasses_components`).
-/

namespace CodeClones.CloneGraph

/-! ## One search -/

/-- Is the node marked as visited? -/
def Visited (visited : Array Bool) (node : Nat) : Prop :=
  visited[node]? = some true

/-- Every neighbour of a visited node is visited, or work is left on it. -/
def Closed (graph : CloneGraph) (visited : Array Bool) (work : List Nat) : Prop :=
  ∀ a b, Visited visited a → b ∈ graph.neighboursOf a → Visited visited b ∨ b ∈ work

theorem visited_setIfInBounds {visited : Array Bool} {node : Nat} (h : visited[node]? = some false)
    (a : Nat) : Visited (visited.setIfInBounds node true) a ↔ Visited visited a ∨ a = node := by
  obtain ⟨hlt, -⟩ := Array.getElem?_eq_some_iff.mp h
  rw [Visited, Visited, Array.getElem?_setIfInBounds]
  by_cases ha : node = a
  · subst ha
    simp [hlt]
  · simp [ha, Ne.symm ha]

theorem visited_of_not_fresh {visited : Array Bool} {node : Nat} (hlt : node < visited.size)
    (h : ¬visited[node]? = some false) : Visited visited node := by
  rw [Array.getElem?_eq_getElem hlt, Option.some_inj] at h
  rw [Visited, Array.getElem?_eq_getElem hlt, Bool.eq_true_of_not_eq_false h]

/-- **What a search does** — it adds some nodes that were not visited before, each of them linked to
an entry of the work; all work is done, and no edge leads out of what is visited. -/
structure Explored (graph : CloneGraph) (linked : Nat → Nat → Prop) (visited : Array Bool)
    (found work : List Nat) (result : Array Bool × List Nat) (fresh : List Nat) : Prop where
  found_eq : result.2 = fresh ++ found
  nodup : fresh.Nodup
  size_eq : result.1.size = visited.size
  visited_iff : ∀ a, Visited result.1 a ↔ Visited visited a ∨ a ∈ fresh
  unvisited : ∀ a ∈ fresh, ¬Visited visited a
  reached : ∀ a ∈ fresh, ∃ start ∈ work, linked start a
  done : ∀ a ∈ work, Visited result.1 a
  closed : Closed graph result.1 []

section Search

variable {graph : CloneGraph} {nodes : Nat} {edges : List (Nat × Nat)} {visited : Array Bool}
  {node : Nat} {found work fresh : List Nat} {result : Array Bool × List Nat}

/-- Marking a node and taking its neighbours as work. -/
theorem Closed.visit (hclosed : Closed graph visited (node :: work))
    (hnew : visited[node]? = some false) :
    Closed graph (visited.setIfInBounds node true) ((graph.neighboursOf node).toList ++ work) := by
  intro a b ha hb
  rw [visited_setIfInBounds hnew] at ha ⊢
  rcases ha with ha | rfl
  · rcases hclosed a b ha hb with hb | hb
    · exact Or.inl (Or.inl hb)
    · rcases List.mem_cons.mp hb with rfl | hb
      · exact Or.inl (Or.inr rfl)
      · exact Or.inr (List.mem_append_right _ hb)
  · exact Or.inr (List.mem_append_left _ hb.val)

/-- Passing over a node that is visited already. -/
theorem Closed.skip (hclosed : Closed graph visited (node :: work))
    (hvisited : Visited visited node) : Closed graph visited work := by
  intro a b ha hb
  rcases hclosed a b ha hb with hb | hb
  · exact Or.inl hb
  · rcases List.mem_cons.mp hb with rfl | hb
    · exact Or.inl hvisited
    · exact Or.inr hb

theorem Explored.skip {linked : Nat → Nat → Prop} (hvisited : Visited visited node)
    (hfound : Explored graph linked visited found work result fresh) :
    Explored graph linked visited found (node :: work) result fresh :=
  { hfound with
    reached := fun a ha => by
      obtain ⟨start, hstart, hlinked⟩ := hfound.reached a ha
      exact ⟨start, List.mem_cons_of_mem node hstart, hlinked⟩
    done := fun a ha => by
      rcases List.mem_cons.mp ha with rfl | ha
      · exact (hfound.visited_iff a).mpr (Or.inl hvisited)
      · exact hfound.done a ha }

variable (h : Represents graph nodes edges)

include h

/-- **Visiting a node**: what is found from its neighbours and the rest of the work, and the node
itself. -/
theorem Explored.visit (hnew : visited[node]? = some false)
    (hfound : Explored graph (Linked nodes edges) (visited.setIfInBounds node true) (node :: found)
      ((graph.neighboursOf node).toList ++ work) result fresh) :
    Explored graph (Linked nodes edges) visited found (node :: work) result (fresh ++ [node]) := by
  have hmark := visited_setIfInBounds hnew
  have hmarked := (hmark node).mpr (Or.inr rfl)
  have hequiv := linked_equivalence nodes edges
  refine ⟨?_, ?_, ?_, fun a => ?_, fun a ha => ?_, fun a ha => ?_, fun a ha => ?_, hfound.closed⟩
  · rw [hfound.found_eq, List.append_assoc, List.singleton_append]
  · refine List.nodup_append.mpr ⟨hfound.nodup, List.nodup_singleton node, ?_⟩
    rintro a ha b hb rfl
    exact hfound.unvisited a ha (List.mem_singleton.mp hb ▸ hmarked)
  · rw [hfound.size_eq, Array.size_setIfInBounds]
  · rw [hfound.visited_iff, hmark, List.mem_append, List.mem_singleton, or_assoc,
      or_comm (a := a = node)]
  · rcases List.mem_append.mp ha with ha | ha
    · exact fun hvisited => hfound.unvisited a ha ((hmark a).mpr (Or.inl hvisited))
    · obtain rfl := List.mem_singleton.mp ha
      rw [Visited, hnew]
      decide
  · rcases List.mem_append.mp ha with ha | ha
    · obtain ⟨start, hstart, hlinked⟩ := hfound.reached a ha
      rcases List.mem_append.mp hstart with hstart | hstart
      · exact ⟨node, List.mem_cons_self,
          hequiv.trans (h.linked_of_mem_neighboursOf (Array.mem_def.mpr hstart)) hlinked⟩
      · exact ⟨start, List.mem_cons_of_mem node hstart, hlinked⟩
    · rw [List.mem_singleton.mp ha]
      exact ⟨node, List.mem_cons_self, hequiv.refl node⟩
  · rcases List.mem_cons.mp ha with rfl | ha
    · exact (hfound.visited_iff a).mpr (Or.inl hmarked)
    · exact hfound.done a (List.mem_append_right _ ha)

/-- **A whole search.** -/
theorem exists_explored (found : List Nat) (hsize : visited.size = nodes)
    (hwork : ∀ a ∈ work, a < nodes) (hclosed : Closed graph visited work) :
    ∃ fresh, Explored graph (Linked nodes edges) visited found work
      (graph.explore visited found work) fresh := by
  fun_induction explore graph visited found work with
  | case1 visited found =>
    exact ⟨[], rfl, List.nodup_nil, rfl, fun a => by simp, nofun, nofun, nofun, hclosed⟩
  | case2 visited found node work hnew ih =>
    have hrange : ∀ a ∈ (graph.neighboursOf node).toList ++ work, a < nodes := fun a ha => by
      rcases List.mem_append.mp ha with ha | ha
      · exact h.lt_of_mem_neighboursOf (Array.mem_def.mpr ha)
      · exact hwork a (List.mem_cons_of_mem node ha)
    obtain ⟨fresh, hfound⟩ := ih (by rw [Array.size_setIfInBounds, hsize]) hrange
      (hclosed.visit hnew)
    exact ⟨fresh ++ [node], hfound.visit h hnew⟩
  | case3 visited found node work hold ih =>
    have hvisited : Visited visited node :=
      visited_of_not_fresh (hsize ▸ hwork node List.mem_cons_self) hold
    obtain ⟨fresh, hfound⟩ := ih hsize (fun a ha => hwork a (List.mem_cons_of_mem node ha))
      (hclosed.skip hvisited)
    exact ⟨fresh, hfound.skip hvisited⟩

/-- **What is closed under edges holds whole classes.** -/
theorem Closed.visited_iff_of_linked (hclosed : Closed graph visited [])
    {a b : Nat} (hab : Linked nodes edges a b) : Visited visited a ↔ Visited visited b := by
  have hstep : ∀ {a b}, b ∈ graph.neighboursOf a → Visited visited a → Visited visited b :=
    fun {a b} hb ha => (hclosed a b ha hb).resolve_right List.not_mem_nil
  induction hab with
  | rel a b hab =>
    exact ⟨hstep ((h.neighbour_iff a b).mpr (Or.inl hab)),
      hstep ((h.neighbour_iff b a).mpr (Or.inr hab))⟩
  | refl a => exact Iff.rfl
  | symm a b _ ih => exact ih.symm
  | trans a b c _ _ ihab ihbc => exact ihab.trans ihbc

end Search

/-! ## The scan over all nodes -/

/-- **The state of a scan** that has seen some nodes: the components found so far are whole classes,
they are what is visited, and every node seen is visited unless it has no edges. -/
structure Scanned (graph : CloneGraph) (linked : Nat → Nat → Prop) (seen : List Nat)
    (state : Exploration) : Prop where
  size_eq : state.visited.size = graph.nodeCount
  closed : Closed graph state.visited []
  visited_iff : ∀ a, Visited state.visited a ↔ ∃ part ∈ state.components, a ∈ part
  nodup : ∀ part ∈ state.components, part.Nodup
  whole : ∀ part ∈ state.components, ∀ a ∈ part, ∀ b, b ∈ part ↔ linked a b
  disjoint : state.components.Pairwise List.Disjoint
  met : ∀ a ∈ seen, graph.degree a ≠ 0 → Visited state.visited a

theorem scanned_start (graph : CloneGraph) (linked : Nat → Nat → Prop) :
    Scanned graph linked [] ⟨Array.replicate graph.nodeCount false, []⟩ := by
  have hnone : ∀ a, ¬Visited (Array.replicate graph.nodeCount false) a := fun a hvisited => by
    rw [Visited, Array.getElem?_replicate] at hvisited
    split at hvisited
    · exact absurd (Option.some.inj hvisited) Bool.false_ne_true
    · exact absurd hvisited nofun
  exact ⟨Array.size_replicate, fun a b ha => absurd ha (hnone a),
    fun a => iff_of_false (hnone a) fun ⟨part, hpart, _⟩ => absurd hpart List.not_mem_nil,
    nofun, nofun, List.Pairwise.nil, nofun⟩

section Scan

variable {graph : CloneGraph} {nodes : Nat} {edges : List (Nat × Nat)}
  (h : Represents graph nodes edges)

include h

/-- **The component of a node not visited before** is its class. -/
theorem Explored.whole {visited : Array Bool} {node : Nat} {result : Array Bool × List Nat}
    {fresh : List Nat} (hclosed : Closed graph visited []) (hnew : ¬Visited visited node)
    (hfound : Explored graph (Linked nodes edges) visited [] [node] result fresh) {a : Nat}
    (ha : a ∈ fresh) (b : Nat) : b ∈ fresh ↔ Linked nodes edges a b := by
  have hequiv := linked_equivalence nodes edges
  have hreached : ∀ a ∈ fresh, Linked nodes edges node a := fun a ha => by
    obtain ⟨start, hstart, hlinked⟩ := hfound.reached a ha
    exact List.mem_singleton.mp hstart ▸ hlinked
  constructor
  · exact fun hb => hequiv.trans (hequiv.symm (hreached a ha)) (hreached b hb)
  · intro hab
    have hnode : Linked nodes edges node b := hequiv.trans (hreached a ha) hab
    have hvisited : Visited result.1 b := (hfound.closed.visited_iff_of_linked h hnode).mp
      (hfound.done node List.mem_cons_self)
    refine ((hfound.visited_iff b).mp hvisited).resolve_left fun hold => hnew ?_
    exact (hclosed.visited_iff_of_linked h hnode).mpr hold

/-- **A node not visited before** starts a component, the nodes its search finds. -/
theorem Scanned.visit {seen : List Nat} {state : Exploration}
    (hscan : Scanned graph (Linked nodes edges) seen state) {node : Nat}
    (hnew : ¬Visited state.visited node) {result : Array Bool × List Nat} {fresh : List Nat}
    (hfound : Explored graph (Linked nodes edges) state.visited [] [node] result fresh) :
    Scanned graph (Linked nodes edges) (seen ++ [node])
      ⟨result.1, fresh :: state.components⟩ := by
  refine ⟨hfound.size_eq.trans hscan.size_eq, hfound.closed, fun a => ?_, ?_, ?_, ?_, ?_⟩
  · rw [hfound.visited_iff, hscan.visited_iff, or_comm]
    simp
  · exact List.forall_mem_cons.mpr ⟨hfound.nodup, hscan.nodup⟩
  · exact List.forall_mem_cons.mpr ⟨fun a ha => hfound.whole h hscan.closed hnew ha, hscan.whole⟩
  · refine List.pairwise_cons.mpr ⟨fun part hpart a ha ha' => ?_, hscan.disjoint⟩
    exact hfound.unvisited a ha ((hscan.visited_iff a).mpr ⟨part, hpart, ha'⟩)
  · intro a ha hdegree
    rcases List.mem_append.mp ha with ha | ha
    · exact (hfound.visited_iff a).mpr (Or.inl (hscan.met a ha hdegree))
    · exact hfound.done a ha

omit h in
/-- A node that has no edges, or is visited, is passed over. -/
theorem Scanned.skip {seen : List Nat} {state : Exploration}
    (hscan : Scanned graph (Linked nodes edges) seen state) {node : Nat}
    (hnode : graph.degree node ≠ 0 → Visited state.visited node) :
    Scanned graph (Linked nodes edges) (seen ++ [node]) state := by
  refine { hscan with met := fun a ha hdegree => ?_ }
  rcases List.mem_append.mp ha with ha | ha
  · exact hscan.met a ha hdegree
  · obtain rfl := List.mem_singleton.mp ha
    exact hnode hdegree

/-- **One node of the scan.** -/
theorem Scanned.next {seen : List Nat} {state : Exploration}
    (hscan : Scanned graph (Linked nodes edges) seen state) {node : Nat} (hlt : node < nodes) :
    Scanned graph (Linked nodes edges) (seen ++ [node]) (state.next graph node) := by
  have hsize := hscan.size_eq.trans h.nodeCount_eq
  rw [Exploration.next]
  split
  · next hstart =>
    have hnew : ¬Visited state.visited node := fun hvisited => by
      rw [Visited, hstart.1] at hvisited
      exact absurd hvisited (by decide)
    obtain ⟨fresh, hfound⟩ := exists_explored h [] hsize
      (fun a (ha : a ∈ [node]) => List.mem_singleton.mp ha ▸ hlt)
      (fun a b ha hb => Or.inl ((hscan.closed a b ha hb).resolve_right List.not_mem_nil))
    have hfresh : (graph.explore state.visited [] [node]).2 = fresh := by
      rw [hfound.found_eq, List.append_nil]
    dsimp only
    rw [hfresh]
    exact hscan.visit h hnew hfound
  · next hskip =>
    exact hscan.skip fun hdegree =>
      visited_of_not_fresh (hsize ▸ hlt) fun hfresh => hskip ⟨hfresh, hdegree⟩

theorem Scanned.foldl_next {seen rest : List Nat} {state : Exploration}
    (hscan : Scanned graph (Linked nodes edges) seen state) (hrest : ∀ node ∈ rest, node < nodes) :
    Scanned graph (Linked nodes edges) (seen ++ rest)
      (rest.foldl (Exploration.next graph) state) := by
  induction rest generalizing seen state with
  | nil => rwa [List.append_nil]
  | cons node rest ih =>
    have hnext := hscan.next h (hrest node List.mem_cons_self)
    rw [List.foldl_cons, List.append_cons]
    exact ih hnext fun other hother => hrest other (List.mem_cons_of_mem node hother)

/-- **The components found by search are the classes of linked nodes.** -/
theorem listsClasses_components : ListsClasses (Linked nodes edges) graph.components := by
  have hrange : ∀ node ∈ List.range graph.nodeCount, node < nodes := fun node hnode =>
    h.nodeCount_eq ▸ List.mem_range.mp hnode
  have hscan := (scanned_start graph (Linked nodes edges)).foldl_next h hrange
  refine listsClasses_arrange ⟨hscan.nodup, hscan.whole, hscan.disjoint, fun {a b} hne hab => ?_⟩
  obtain ⟨hlt, hdegree⟩ := h.degree_ne_zero hne hab
  have hseen : a ∈ [] ++ List.range graph.nodeCount := by
    rw [List.nil_append, List.mem_range, h.nodeCount_eq]
    exact hlt
  exact (hscan.visited_iff a).mp (hscan.met a hseen hdegree)

end Scan

end CodeClones.CloneGraph
