import CodeClones.Graph.Components
import CodeClones.Proofs.Order.Sorting

/-!
# Proofs/Graph/Classes — the classes of a relation, put in order

`Divides` says that some lists split the nodes into classes of an equivalence relation, in any order
and with nodes on their own left out or not.  Whatever the lists are, `arrange` makes the same list
of them: `ListsClasses` describes it without reference to a search, and there is only one such list
(`ListsClasses.unique`).
-/

namespace CodeClones.CloneGraph

variable {r : Nat → Nat → Prop}

/-! ## What is listed -/

/-- **The classes of a relation in order** — exactly those with at least two members, each with
ascending members; an earlier class has a member that is smaller than all of a later one. -/
structure ListsClasses (r : Nat → Nat → Prop) (classes : List (List Nat)) : Prop where
  mem_iff : ∀ c, c ∈ classes
    ↔ 2 ≤ c.length ∧ c.Pairwise (· < ·) ∧ ∀ a ∈ c, ∀ b, b ∈ c ↔ r a b
  ascending : classes.Pairwise fun c d => ∃ a ∈ c, ∀ b ∈ d, a < b

theorem ListsClasses.nodup {classes : List (List Nat)} (h : ListsClasses r classes) :
    classes.Nodup :=
  h.ascending.imp fun hlt heq => by
    obtain ⟨a, ha, hlt⟩ := hlt
    exact Nat.lt_irrefl a (hlt a (heq ▸ ha))

/-- **Different classes have no member in common.** -/
theorem ListsClasses.disjoint {classes : List (List Nat)} (h : ListsClasses r classes) :
    classes.Pairwise List.Disjoint := by
  refine h.ascending.imp_of_mem fun {c d} hc hd hcd a hac had => ?_
  obtain ⟨x, hx, hlt⟩ := hcd
  have hax : r a x := (((h.mem_iff c).mp hc).2.2 a hac x).mp hx
  exact Nat.lt_irrefl x (hlt x ((((h.mem_iff d).mp hd).2.2 a had x).mpr hax))

theorem exists_eq_cons_cons {c : List Nat} (h : 2 ≤ c.length) : ∃ a b rest, c = a :: b :: rest := by
  match c, h with
  | a :: b :: rest, _ => exact ⟨a, b, rest, rfl⟩

/-- **A member of a class is related to another one.** -/
theorem ListsClasses.exists_ne {classes : List (List Nat)} (h : ListsClasses r classes)
    {c : List Nat} (hc : c ∈ classes) {a : Nat} (ha : a ∈ c) : ∃ b, a ≠ b ∧ r a b := by
  obtain ⟨htwo, hascending, hwhole⟩ := (h.mem_iff c).mp hc
  obtain ⟨first, second, rest, rfl⟩ := exists_eq_cons_cons htwo
  by_cases heq : a = first
  · have hlt := List.rel_of_pairwise_cons hascending List.mem_cons_self
    exact ⟨second, heq ▸ Nat.ne_of_lt hlt,
      (hwhole a ha second).mp (List.mem_cons_of_mem first List.mem_cons_self)⟩
  · exact ⟨first, heq, (hwhole a ha first).mp List.mem_cons_self⟩

/-- **Related nodes are listed in one class**, if there are only so many nodes. -/
theorem ListsClasses.exists_mem {classes : List (List Nat)} (h : ListsClasses r classes)
    (hequiv : Equivalence r) {nodes : Nat} (hnodes : ∀ {a b}, a ≠ b → r a b → a < nodes)
    {a b : Nat} (hne : a ≠ b) (hab : r a b) : ∃ c ∈ classes, a ∈ c ∧ b ∈ c := by
  classical
  have hmem : ∀ x, x ∈ (List.range nodes).filter (fun x => decide (r a x)) ↔ r a x := by
    intro x
    rw [List.mem_filter, List.mem_range, decide_eq_true_iff]
    refine and_iff_right_of_imp fun hax => ?_
    by_cases hxa : x = a
    · exact hxa ▸ hnodes hne hab
    · exact hnodes hxa (hequiv.symm hax)
  have ha := (hmem a).mpr (hequiv.refl a)
  have hb := (hmem b).mpr hab
  refine ⟨_, (h.mem_iff _).mpr ⟨?_, List.pairwise_lt_range.filter _, fun x hx y => ?_⟩, ha, hb⟩
  · have hsubset := List.cons_subset.mpr ⟨ha, List.cons_subset.mpr ⟨hb, List.nil_subset _⟩⟩
    exact (List.nodup_cons.mpr ⟨by simpa using hne, List.nodup_singleton b⟩).subperm hsubset
      |>.length_le
  · rw [hmem]
    have hax := (hmem x).mp hx
    exact ⟨hequiv.trans (hequiv.symm hax), hequiv.trans hax⟩

/-- **There is only one such list.** -/
theorem ListsClasses.unique {classes classes' : List (List Nat)} (h : ListsClasses r classes)
    (h' : ListsClasses r classes') : classes = classes' := by
  have hperm : classes.Perm classes' :=
    (List.perm_ext_iff_of_nodup h.nodup h'.nodup).mpr fun c => by rw [h.mem_iff, h'.mem_iff]
  refine hperm.eq_of_pairwise (fun c d _ _ hcd hdc => ?_) h.ascending h'.ascending
  obtain ⟨a, ha, hlt⟩ := hcd
  obtain ⟨b, hb, hlt'⟩ := hdc
  exact absurd (hlt b hb) (Nat.lt_asymm (hlt' a ha))

/-- **Lists that split the nodes into classes**, each entry of a list together with all it is
related to.  Only a node related to no other may be missing. -/
structure Divides (r : Nat → Nat → Prop) (parts : List (List Nat)) : Prop where
  nodup : ∀ part ∈ parts, part.Nodup
  whole : ∀ part ∈ parts, ∀ a ∈ part, ∀ b, b ∈ part ↔ r a b
  disjoint : parts.Pairwise List.Disjoint
  covers : ∀ {a b}, a ≠ b → r a b → ∃ part ∈ parts, a ∈ part

/-! ## Putting nodes in order -/

theorem mem_ascendingNodes {nodes : List Nat} {a : Nat} : a ∈ ascendingNodes nodes ↔ a ∈ nodes :=
  List.mem_mergeSort

theorem pairwise_ascendingNodes {nodes : List Nat} (h : nodes.Nodup) :
    (ascendingNodes nodes).Pairwise (· < ·) := by
  have hne : (ascendingNodes nodes).Nodup := (List.mergeSort_perm nodes _).nodup_iff.mpr h
  have hle := Order.pairwise_mergeSort_key id (fun _ _ => decide_eq_true_iff) nodes
  exact (hle.and hne).imp fun hab => Nat.lt_of_le_of_ne hab.1 hab.2

/-- The nodes in order are the one ascending list of them. -/
theorem ascendingNodes_eq {nodes c : List Nat} (h : nodes.Nodup) (hc : c.Pairwise (· < ·))
    (hmem : ∀ a, a ∈ nodes ↔ a ∈ c) : ascendingNodes nodes = c := by
  refine (pairwise_ascendingNodes h).eq_of_mem_iff hc fun a => ?_
  rw [mem_ascendingNodes, hmem]

/-- The first member of an ascending list of nodes is the smallest. -/
theorem head_le_of_mem {c : List Nat} (hc : c.Pairwise (· < ·)) {a : Nat} (ha : a ∈ c) :
    c.head?.getD 0 ≤ a := by
  cases c with
  | nil => exact absurd ha List.not_mem_nil
  | cons first rest =>
    rcases List.mem_cons.mp ha with rfl | ha
    · exact Nat.le_refl _
    · exact Nat.le_of_lt ((List.pairwise_cons.mp hc).1 a ha)

theorem head_mem {c : List Nat} (hc : 2 ≤ c.length) : c.head?.getD 0 ∈ c := by
  cases c with
  | nil => exact absurd hc (by decide)
  | cons first rest => exact List.mem_cons_self

/-! ## Putting classes in order -/

theorem mem_arrange {parts : List (List Nat)} {c : List Nat} :
    c ∈ arrange parts ↔ (∃ part ∈ parts, ascendingNodes part = c) ∧ 2 ≤ c.length := by
  rw [arrange, List.mem_mergeSort, List.mem_filter, List.mem_map, decide_eq_true_iff]

theorem disjoint_arrange {parts : List (List Nat)} (h : parts.Pairwise List.Disjoint) :
    (arrange parts).Pairwise List.Disjoint := by
  have hmap : (parts.map ascendingNodes).Pairwise List.Disjoint :=
    List.pairwise_map.mpr (h.imp fun hdisjoint a ha hb =>
      hdisjoint (mem_ascendingNodes.mp ha) (mem_ascendingNodes.mp hb))
  exact (List.mergeSort_perm _ _).symm.pairwise (hmap.filter _) fun hdisjoint => hdisjoint.symm

/-- **Every class of at least two nodes is a part**; a node on its own may be missing. -/
theorem Divides.exists_part {parts : List (List Nat)} (h : Divides r parts) {c : List Nat}
    (htwo : 2 ≤ c.length) (hascending : c.Pairwise (· < ·))
    (hwhole : ∀ a ∈ c, ∀ b, b ∈ c ↔ r a b) : ∃ part ∈ parts, ascendingNodes part = c := by
  obtain ⟨a, b, rest, rfl⟩ := exists_eq_cons_cons htwo
  have ha : a ∈ a :: b :: rest := List.mem_cons_self
  have hab : r a b := (hwhole a ha b).mp (List.mem_cons_of_mem a List.mem_cons_self)
  have hne : a ≠ b := Nat.ne_of_lt ((List.pairwise_cons.mp hascending).1 b List.mem_cons_self)
  obtain ⟨part, hpart, hmem⟩ := h.covers hne hab
  refine ⟨part, hpart, ascendingNodes_eq (h.nodup part hpart) hascending fun x => ?_⟩
  rw [h.whole part hpart a hmem, hwhole a ha]

/-- **Arranged, the parts are the classes in order.** -/
theorem listsClasses_arrange {parts : List (List Nat)} (h : Divides r parts) :
    ListsClasses r (arrange parts) where
  mem_iff c := by
    rw [mem_arrange]
    constructor
    · rintro ⟨⟨part, hpart, rfl⟩, htwo⟩
      refine ⟨htwo, pairwise_ascendingNodes (h.nodup part hpart), fun a ha b => ?_⟩
      rw [mem_ascendingNodes]
      exact h.whole part hpart a (mem_ascendingNodes.mp ha) b
    · rintro ⟨htwo, hascending, hwhole⟩
      exact ⟨h.exists_part htwo hascending hwhole, htwo⟩
  ascending := by
    have hheads := Order.pairwise_mergeSort_key (fun c : List Nat => c.head?.getD 0)
      (fun _ _ => decide_eq_true_iff)
      ((parts.map ascendingNodes).filter fun c => decide (2 ≤ c.length))
    have hboth := hheads.and (disjoint_arrange h.disjoint)
    refine hboth.imp_of_mem fun {c d} hc hd hcd => ?_
    obtain ⟨⟨part, hpart, rfl⟩, htwo⟩ := mem_arrange.mp hc
    obtain ⟨⟨part', hpart', rfl⟩, -⟩ := mem_arrange.mp hd
    refine ⟨_, head_mem htwo, fun b hb => ?_⟩
    have hle := head_le_of_mem (pairwise_ascendingNodes (h.nodup part' hpart')) hb
    refine Nat.lt_of_le_of_ne (Nat.le_trans hcd.1 hle) ?_
    rintro rfl
    exact hcd.2 (head_mem htwo) hb

end CodeClones.CloneGraph
