import CodeClones.Graph.Forest
import CodeClones.Proofs.Graph.Components
import CodeClones.Proofs.Parallel.Workload

/-!
# Proofs/Graph/Forest — merging finds the same components, in any order of the edges

Every node has a root, the last of its line of parents.  A labelling that is the same for a node and
its parent and leaves roots alone can only be the root (`eq_rootOf`); so shortening a way changes no
root, and linking one root under another renames it.  Merging along some edges, in any order, gives
two nodes the same root exactly if they are linked.  Trees and searches list the same classes, hence
the same components (`components_agree`).
-/

namespace CodeClones

open Parallel

/-! ## Roots -/

namespace Forest

/-- **The root of a node**, found by going from parent to parent. -/
def rootOf (forest : Forest) (node : Nat) : Nat :=
  if _isRoot : forest.parentOf node = node then node
  else rootOf forest (forest.parentOf node)
termination_by node
decreasing_by exact Nat.lt_of_le_of_ne (forest.parentOf_le node) _isRoot

variable {forest : Forest} {node parent : Nat}

theorem rootOf_of_isRoot (h : forest.parentOf node = node) : forest.rootOf node = node := by
  rw [rootOf, dif_pos h]

@[simp] theorem rootOf_parentOf (forest : Forest) (node : Nat) :
    forest.rootOf (forest.parentOf node) = forest.rootOf node := by
  by_cases h : forest.parentOf node = node
  · rw [h]
  · rw [rootOf.eq_1 forest node, dif_neg h]

/-- **Only the root** is the same for a node and its parent and leaves roots alone. -/
theorem eq_rootOf (label : Nat → Nat) (hparent : ∀ node, label (forest.parentOf node) = label node)
    (hroot : ∀ node, forest.parentOf node = node → label node = node) (node : Nat) :
    label node = forest.rootOf node := by
  fun_induction rootOf forest node with
  | case1 node h => exact hroot node h
  | case2 node _ ih => rw [← ih, hparent]

theorem parentOf_rootOf (forest : Forest) (node : Nat) :
    forest.parentOf (forest.rootOf node) = forest.rootOf node := by
  fun_induction rootOf forest node with
  | case1 node h => exact h
  | case2 node _ ih => exact ih

theorem rootOf_le (forest : Forest) (node : Nat) : forest.rootOf node ≤ node := by
  fun_induction rootOf forest node with
  | case1 node _ => exact Nat.le_refl node
  | case2 node _ ih => exact Nat.le_trans ih (forest.parentOf_le node)

theorem rootOf_rootOf (forest : Forest) (node : Nat) :
    forest.rootOf (forest.rootOf node) = forest.rootOf node :=
  rootOf_of_isRoot (forest.parentOf_rootOf node)

/-! ## Links -/

@[simp] theorem size_link (h : parent ≤ node) :
    (forest.link node parent h).parents.size = forest.parents.size :=
  Array.size_setIfInBounds

theorem parentOf_link (h : parent ≤ node) (other : Nat) :
    (forest.link node parent h).parentOf other
      = if other = node ∧ node < forest.parents.size then parent else forest.parentOf other := by
  rw [parentOf, link, Array.getElem?_setIfInBounds]
  by_cases heq : node = other
  · subst heq
    by_cases hlt : node < forest.parents.size
    · simp [hlt]
    · simp [hlt, parentOf]
  · simp [heq, Ne.symm heq, parentOf]

/-- **Shortening a way changes no root.** -/
theorem rootOf_link_of_rootOf_eq (h : parent < node)
    (hsame : forest.rootOf parent = forest.rootOf node) (other : Nat) :
    (forest.link node parent (Nat.le_of_lt h)).rootOf other = forest.rootOf other := by
  refine (eq_rootOf _ (fun x => ?_) (fun x hx => ?_) other).symm
  · rw [parentOf_link]
    split
    · next heq => rw [hsame, heq.1]
    · exact forest.rootOf_parentOf x
  · rw [parentOf_link] at hx
    split at hx
    · next heq => exact absurd (hx.trans heq.1) (Nat.ne_of_lt h)
    · exact rootOf_of_isRoot hx

/-- **Linking a root under a smaller node** joins its tree to that of the node. -/
theorem rootOf_link_of_lt (h : parent < node) (hlt : node < forest.parents.size)
    (hnode : forest.parentOf node = node) (other : Nat) :
    (forest.link node parent (Nat.le_of_lt h)).rootOf other
      = if forest.rootOf other = node then forest.rootOf parent else forest.rootOf other := by
  refine (eq_rootOf (fun x => if forest.rootOf x = node then forest.rootOf parent
    else forest.rootOf x) (fun x => ?_) (fun x hx => ?_) other).symm
  · rw [parentOf_link]
    split
    · next heq => rw [heq.1, rootOf_of_isRoot hnode, ite_self, if_pos rfl]
    · rw [rootOf_parentOf]
  · rw [parentOf_link] at hx
    split at hx
    · next heq => exact absurd (hx.trans heq.1) (Nat.ne_of_lt h)
    · next hne =>
      rw [rootOf_of_isRoot hx, if_neg fun heq => hne ⟨heq, hlt⟩]

/-- **Linking a root under a smaller root** renames it. -/
theorem rootOf_link_of_isRoot (h : parent < node) (hlt : node < forest.parents.size)
    (hparent : forest.parentOf parent = parent) (hnode : forest.parentOf node = node)
    (other : Nat) :
    (forest.link node parent (Nat.le_of_lt h)).rootOf other
      = if forest.rootOf other = node then parent else forest.rootOf other := by
  rw [rootOf_link_of_lt h hlt hnode, rootOf_of_isRoot hparent]

/-! ## Searching a root -/

/-- **Searching** gives the root and leaves all roots as they are. -/
theorem find_spec (forest : Forest) (node : Nat) :
    (forest.find node).1 = forest.rootOf node
      ∧ (∀ other, (forest.find node).2.rootOf other = forest.rootOf other)
      ∧ (forest.find node).2.parents.size = forest.parents.size := by
  fun_induction find forest node with
  | case1 forest node h => exact ⟨(rootOf_of_isRoot h).symm, fun _ => rfl, rfl⟩
  | case2 forest node h parent grand heq ih =>
    have hroot : forest.rootOf grand = forest.rootOf node := by
      rw [rootOf_parentOf, rootOf_parentOf]
    exact ⟨ih.1.trans hroot, ih.2⟩
  | case3 forest node h parent grand hne ih =>
    have hroot : forest.rootOf grand = forest.rootOf node := by
      rw [rootOf_parentOf, rootOf_parentOf]
    have hlt : grand < node := Nat.lt_of_le_of_lt (forest.parentOf_le parent)
      (Nat.lt_of_le_of_ne (forest.parentOf_le node) h)
    have hlink := rootOf_link_of_rootOf_eq hlt hroot
    refine ⟨ih.1.trans ((hlink grand).trans hroot), fun other => ?_, ih.2.2.trans (size_link _)⟩
    exact (ih.2.1 other).trans (hlink other)

theorem isRoot_iff : forest.parentOf node = node ↔ forest.rootOf node = node :=
  ⟨rootOf_of_isRoot, fun h => h ▸ forest.parentOf_rootOf node⟩

/-! ## Merging -/

/-- **Merging two sets** — all their nodes get the smaller of the two roots. -/
theorem unite_spec {edge : Nat × Nat} (hfirst : edge.1 < forest.parents.size)
    (hsecond : edge.2 < forest.parents.size) :
    (forest.unite edge).parents.size = forest.parents.size
      ∧ ∀ other, (forest.unite edge).rootOf other
        = if forest.rootOf other = forest.rootOf edge.1
            ∨ forest.rootOf other = forest.rootOf edge.2
          then min (forest.rootOf edge.1) (forest.rootOf edge.2)
          else forest.rootOf other := by
  obtain ⟨hroot, hkept, hsize⟩ := forest.find_spec edge.1
  obtain ⟨hroot', hkept', hsize'⟩ := (forest.find edge.1).2.find_spec edge.2
  rw [hkept] at hroot'
  have hroots : ∀ other, ((forest.find edge.1).2.find edge.2).2.rootOf other
      = forest.rootOf other := fun other => (hkept' other).trans (hkept other)
  have hisRoot : ∀ node, ((forest.find edge.1).2.find edge.2).2.parentOf (forest.rootOf node)
      = forest.rootOf node := fun node => by
    rw [isRoot_iff, hroots, rootOf_rootOf]
  have hsizes := hsize'.trans hsize
  have hlt := Nat.lt_of_le_of_lt (forest.rootOf_le edge.1) hfirst
  have hlt' := Nat.lt_of_le_of_lt (forest.rootOf_le edge.2) hsecond
  rw [unite]
  dsimp only
  simp only [hroot, hroot']
  rcases Nat.lt_trichotomy (forest.rootOf edge.1) (forest.rootOf edge.2) with h | h | h
  · rw [dif_pos (Nat.le_of_lt h), if_neg (Nat.ne_of_lt h), min_eq_left_of_lt h]
    refine ⟨(size_link _).trans hsizes, fun other => ?_⟩
    rw [rootOf_link_of_isRoot h (hsizes ▸ hlt') (hisRoot _) (hisRoot _), hroots]
    grind
  · rw [dif_pos (Nat.le_of_eq h), if_pos h, h, min_self]
    refine ⟨hsizes, fun other => ?_⟩
    rw [hroots]
    grind
  · rw [dif_neg (Nat.not_le_of_lt h), min_eq_right_of_lt h]
    refine ⟨(size_link _).trans hsizes, fun other => ?_⟩
    rw [rootOf_link_of_isRoot h (hsizes ▸ hlt) (hisRoot _) (hisRoot _), hroots]
    grind

/-- **A forest after merging some edges** — every node is linked to its root, and the ends of an
edge have the same root. -/
structure Merged (linked : Nat → Nat → Prop) (size : Nat) (edges : List (Nat × Nat))
    (forest : Forest) : Prop where
  size_eq : forest.parents.size = size
  sound : ∀ node, linked node (forest.rootOf node)
  joins : ∀ edge ∈ edges, forest.rootOf edge.1 = forest.rootOf edge.2

section Merged

variable {linked : Nat → Nat → Prop} {size : Nat} (hequiv : Equivalence linked)

include hequiv

theorem merged_singletons : Merged linked size [] (singletons size) where
  size_eq := Array.size_range
  sound node := by
    rw [rootOf_of_isRoot]
    · exact hequiv.refl node
    · by_cases h : node < size <;> simp [parentOf, singletons, h]
  joins := nofun

/-- **One edge.** -/
theorem Merged.unite {edges : List (Nat × Nat)} (h : Merged linked size edges forest)
    {edge : Nat × Nat} (hlinked : linked edge.1 edge.2) (hfirst : edge.1 < size)
    (hsecond : edge.2 < size) : Merged linked size (edges ++ [edge]) (forest.unite edge) := by
  obtain ⟨hsize, hroot⟩ := forest.unite_spec (h.size_eq.symm ▸ hfirst) (h.size_eq.symm ▸ hsecond)
  have hroots : linked (forest.rootOf edge.1) (forest.rootOf edge.2) :=
    hequiv.trans (hequiv.symm (h.sound edge.1)) (hequiv.trans hlinked (h.sound edge.2))
  have hmin :
      linked (forest.rootOf edge.1) (min (forest.rootOf edge.1) (forest.rootOf edge.2)) := by
    rcases min_choice (forest.rootOf edge.1) (forest.rootOf edge.2) with heq | heq
    · rw [heq]
      exact hequiv.refl _
    · rw [heq]
      exact hroots
  refine ⟨hsize.trans h.size_eq, fun node => ?_, fun other hother => ?_⟩
  · rw [hroot]
    split
    · next heq =>
      refine hequiv.trans (h.sound node) ?_
      rcases heq with heq | heq
      · rw [heq]
        exact hmin
      · rw [heq]
        exact hequiv.trans (hequiv.symm hroots) hmin
    · exact h.sound node
  · rw [hroot, hroot]
    rcases List.mem_append.mp hother with hother | hother
    · rw [h.joins other hother]
    · rw [List.mem_singleton.mp hother, if_pos (Or.inl rfl), if_pos (Or.inr rfl)]

/-- **All edges.** -/
theorem Merged.foldl_unite {done rest : List (Nat × Nat)} (h : Merged linked size done forest)
    (hrest : ∀ edge ∈ rest, linked edge.1 edge.2 ∧ edge.1 < size ∧ edge.2 < size) :
    Merged linked size (done ++ rest) (rest.foldl Forest.unite forest) := by
  induction rest generalizing done forest with
  | nil => rwa [List.append_nil]
  | cons edge rest ih =>
    obtain ⟨hlinked, hfirst, hsecond⟩ := hrest edge List.mem_cons_self
    rw [List.foldl_cons, List.append_cons]
    exact ih (h.unite hequiv hlinked hfirst hsecond) fun other hother =>
      hrest other (List.mem_cons_of_mem edge hother)

end Merged

/-- **Two nodes have the same root exactly if they are linked**, once every admitted edge is
merged. -/
theorem Merged.rootOf_eq_iff {nodes : Nat} {edges order : List (Nat × Nat)}
    (h : Merged (CloneGraph.Linked nodes edges) nodes order forest)
    (hall : ∀ {a b}, CloneGraph.Joined nodes edges a b → (a, b) ∈ order) {a b : Nat} :
    forest.rootOf a = forest.rootOf b ↔ CloneGraph.Linked nodes edges a b := by
  have hequiv := CloneGraph.linked_equivalence nodes edges
  constructor
  · intro heq
    exact hequiv.trans (h.sound a) (heq ▸ hequiv.symm (h.sound b))
  · intro hab
    induction hab with
    | rel a b hab => exact h.joins (a, b) (hall hab)
    | refl a => rfl
    | symm a b _ ih => exact ih.symm
    | trans a b c _ _ ihab ihbc => exact ihab.trans ihbc

/-! ## The members of the trees -/

theorem getElem?_foldl_assign (nodes : List Nat) (forest : Forest) (table : Array (List Nat))
    (root : Nat) :
    (nodes.foldl assign (forest, table)).2[root]?
      = table[root]?.map fun members =>
        (nodes.filter fun node => forest.rootOf node == root).reverse ++ members := by
  induction nodes generalizing forest table with
  | nil => simp
  | cons node nodes ih =>
    obtain ⟨hroot, hkept, -⟩ := forest.find_spec node
    rw [List.foldl_cons, assign]
    dsimp only
    rw [ih, hroot, Array.getElem?_modify, List.filter_cons]
    simp only [hkept]
    by_cases heq : forest.rootOf node = root
    · rw [if_pos heq, if_pos (beq_iff_eq.mpr heq), List.reverse_cons]
      cases table[root]? <;> simp
    · rw [if_neg heq, if_neg (by rwa [beq_iff_eq])]

/-- **The members of a tree** are the nodes with its root. -/
theorem members_eq (forest : Forest) (size : Nat) (nodes : List Nat) :
    forest.members size nodes = (List.range size).map fun root =>
      (nodes.filter fun node => forest.rootOf node == root).reverse := by
  refine List.ext_getElem? fun root => ?_
  rw [members, Array.getElem?_toList, getElem?_foldl_assign, List.getElem?_map,
    Array.getElem?_replicate]
  by_cases h : root < size
  · simp [h]
  · simp [h]

end Forest

/-! ## Components -/

namespace CloneGraph

open Forest

/-- **Trees divide the nodes into classes** if nodes have the same root exactly if they are linked,
and no node linked to another one is left out. -/
theorem divides_members {linked : Nat → Nat → Prop} {forest : Forest} {size : Nat}
    {nodes : List Nat} (hnodup : nodes.Nodup)
    (hsame : ∀ a b, forest.rootOf a = forest.rootOf b ↔ linked a b)
    (hlt : ∀ a ∈ nodes, a < size) (hkept : ∀ {a b}, a ≠ b → linked a b → a ∈ nodes) :
    Divides linked (forest.members size nodes) := by
  have hmem : ∀ {root a}, a ∈ (nodes.filter fun node => forest.rootOf node == root).reverse
      ↔ a ∈ nodes ∧ forest.rootOf a = root := by
    intro root a
    rw [List.mem_reverse, List.mem_filter, beq_iff_eq]
  rw [members_eq]
  refine ⟨?_, ?_, ?_, fun {a b} hne hab => ?_⟩
  · intro part hpart
    obtain ⟨root, -, rfl⟩ := List.mem_map.mp hpart
    exact List.nodup_reverse.mpr (hnodup.filter _)
  · intro part hpart a ha b
    obtain ⟨root, -, rfl⟩ := List.mem_map.mp hpart
    obtain ⟨hnode, rfl⟩ := hmem.mp ha
    rw [hmem, ← hsame a b, eq_comm]
    refine and_iff_right_of_imp fun heq => ?_
    by_cases hab : a = b
    · exact hab ▸ hnode
    · exact hkept (Ne.symm hab) ((hsame b a).mp heq.symm)
  · refine List.pairwise_map.mpr (List.nodup_range.imp fun hne a ha ha' => hne ?_)
    exact (hmem.mp ha).2.symm.trans (hmem.mp ha').2
  · have hnode := hkept hne hab
    refine ⟨_, List.mem_map.mpr ⟨forest.rootOf a, List.mem_range.mpr ?_, rfl⟩,
      hmem.mpr ⟨hnode, rfl⟩⟩
    exact Nat.lt_of_le_of_lt (forest.rootOf_le a) (hlt a hnode)

section Represents

variable {graph : CloneGraph} {nodes : Nat} {edges : List (Nat × Nat)}
  (h : Represents graph nodes edges)

include h

/-- The forest after merging along the edges of the graph, in any order. -/
theorem Represents.merged {order : List (Nat × Nat)} (horder : order.Perm graph.edges.toList) :
    Merged (Linked nodes edges) nodes order
      (order.foldl Forest.unite (Forest.singletons graph.nodeCount)) := by
  have hjoined : ∀ edge ∈ order, Joined nodes edges edge.1 edge.2 := fun edge hedge =>
    (h.edge_iff edge.1 edge.2).mp (Array.mem_def.mpr (horder.mem_iff.mp hedge))
  rw [h.nodeCount_eq]
  refine (merged_singletons (linked_equivalence nodes edges)).foldl_unite
    (linked_equivalence nodes edges) fun edge hedge => ?_
  exact ⟨Relation.EqvGen.rel _ _ (hjoined edge hedge), (hjoined edge hedge).2.2⟩

/-- The trees of that forest are the classes of linked nodes. -/
theorem Represents.rootOf_eq_iff {order : List (Nat × Nat)}
    (horder : order.Perm graph.edges.toList) {forest : Forest}
    (hforest : Merged (Linked nodes edges) nodes order forest) {a b : Nat} :
    forest.rootOf a = forest.rootOf b ↔ Linked nodes edges a b :=
  hforest.rootOf_eq_iff fun hab =>
    horder.mem_iff.mpr (Array.mem_def.mp ((h.edge_iff _ _).mpr hab))

/-- **The trees are the classes of linked nodes.** -/
theorem Represents.listsClasses_members {order : List (Nat × Nat)}
    (horder : order.Perm graph.edges.toList) {forest : Forest}
    (hforest : Merged (Linked nodes edges) nodes order forest) :
    ListsClasses (Linked nodes edges) (arrange (forest.members graph.nodeCount
      ((List.range graph.nodeCount).filter fun node => graph.degree node != 0))) := by
  refine listsClasses_arrange (divides_members (List.nodup_range.filter _)
    (fun a b => h.rootOf_eq_iff horder hforest) (fun a ha => ?_) fun {a b} hne hab => ?_)
  · exact List.mem_range.mp (List.mem_filter.mp ha).1
  · obtain ⟨hlt, hdegree⟩ := h.degree_ne_zero hne hab
    exact List.mem_filter.mpr
      ⟨List.mem_range.mpr (h.nodeCount_eq.symm ▸ hlt), by simpa using hdegree⟩

theorem Represents.listsClasses_componentsInOrder {order : List (Nat × Nat)}
    (horder : order.Perm graph.edges.toList) :
    ListsClasses (Linked nodes edges) (graph.componentsInOrder order) :=
  h.listsClasses_members horder (h.merged horder)

end Represents

/-- **Merging in any order gives the components that are found by search.** -/
theorem componentsInOrder_eq {nodes : Nat} {edges order : List (Nat × Nat)}
    (horder : order.Perm (ofEdges nodes edges).edges.toList) :
    (ofEdges nodes edges).componentsInOrder order = (ofEdges nodes edges).components := by
  have h := represents_ofEdges nodes edges
  exact (h.listsClasses_componentsInOrder horder).unique (listsClasses_components h)

/-- **Sharing out the edges changes nothing.** -/
theorem value_componentsUnder (gate : Gate) (schedule : Schedule) (nodes : Nat)
    (edges : List (Nat × Nat)) :
    ((ofEdges nodes edges).componentsUnder gate schedule).value
      = (ofEdges nodes edges).components := by
  rw [componentsUnder]
  split
  · exact componentsInOrder_eq ((schedule.edges _).perm_filterMap_order _ rfl)
  · rfl

/-- **The components are the classes of linked nodes, however they are found** — by search, or by
merging sets along the edges in any order; under every gate and schedule the answer is the same. -/
theorem components_agree (nodes : Nat) (edges : List (Nat × Nat)) :
    ListsClasses (Linked nodes edges) (ofEdges nodes edges).components
      ∧ (∀ gate schedule, ((ofEdges nodes edges).componentsUnder gate schedule).value
        = (ofEdges nodes edges).components)
      ∧ ∀ order, order.Perm (ofEdges nodes edges).edges.toList →
        (ofEdges nodes edges).componentsInOrder order = (ofEdges nodes edges).components :=
  ⟨listsClasses_components (represents_ofEdges nodes edges),
    fun gate schedule => value_componentsUnder gate schedule nodes edges,
    fun _ horder => componentsInOrder_eq horder⟩

/-- A repeated edge, a loop and an edge to an unknown node, merged from the last to the first. -/
theorem components_agree_backwards :
    [(1, 0), (3, 1), (0, 1)].Perm (ofEdges 5 [(0, 1), (3, 1), (1, 0), (2, 2), (4, 9)]).edges.toList
      ∧ (ofEdges 5 [(0, 1), (3, 1), (1, 0), (2, 2), (4, 9)]).componentsInOrder
        [(1, 0), (3, 1), (0, 1)] = [[0, 1, 3]] := by
  have hperm : [(1, 0), (3, 1), (0, 1)].Perm
      (ofEdges 5 [(0, 1), (3, 1), (1, 0), (2, 2), (4, 9)]).edges.toList := by decide
  refine ⟨hperm, ?_⟩
  rw [(components_agree 5 [(0, 1), (3, 1), (1, 0), (2, 2), (4, 9)]).2.2 _ hperm]
  cbv

end CloneGraph

end CodeClones
