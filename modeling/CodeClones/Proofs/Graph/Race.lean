import CodeClones.Graph.Race
import CodeClones.Proofs.Graph.Forest

/-!
# Proofs/Graph/Race — merging without locks finds the same sets under every interleaving

What a worker has read may be stale, but no step of another worker makes it wrong: parents never
exceed their children, and nodes with the same root keep a common root, whatever that is
(`Advances`).  So a node that a search has come to is still in the tree of the end that it started
from (`Near`), a swing past a parent that succeeds late shortens a way all the same, and a link that
succeeds joins the trees of the two ends, even if the smaller node is no longer a root
(`Control.Sound.step`).  Every single step keeps this (`Machine.Coherent.step`), hence every course
of moves.
-/

namespace CodeClones.Race

open Forest CloneGraph

variable {forest forest' : Forest} {target node : Nat} {edge : Nat × Nat} {size : Nat}
  {linked : Nat → Nat → Prop}

/-! ## What stays true -/

/-- **How the forest may change** — trees only grow together, and along links. -/
structure Advances (linked : Nat → Nat → Prop) (forest forest' : Forest) : Prop where
  size_eq : forest'.parents.size = forest.parents.size
  joined : ∀ {a b}, forest.rootOf a = forest.rootOf b → forest'.rootOf a = forest'.rootOf b
  sound : (∀ node, linked node (forest.rootOf node)) → ∀ node, linked node (forest'.rootOf node)

/-- Roots that stay are an advance. -/
theorem Advances.of_rootOf_eq (hsize : forest'.parents.size = forest.parents.size)
    (hroots : ∀ node, forest'.rootOf node = forest.rootOf node) :
    Advances linked forest forest' where
  size_eq := hsize
  joined h := by rwa [hroots, hroots]
  sound h node := hroots node ▸ h node

/-- **A node on a way to the root of `target`** — in the same tree, and not larger. -/
def Near (forest : Forest) (target node : Nat) : Prop :=
  node ≤ target ∧ forest.rootOf node = forest.rootOf target

theorem Near.refl (forest : Forest) (target : Nat) : Near forest target target :=
  ⟨Nat.le_refl target, rfl⟩

theorem Near.parentOf (h : Near forest target node) : Near forest target (forest.parentOf node) :=
  ⟨(forest.parentOf_le node).trans h.1, (forest.rootOf_parentOf node).trans h.2⟩

theorem Near.advance (h : Near forest target node) (hadvances : Advances linked forest forest') :
    Near forest' target node :=
  ⟨h.1, hadvances.joined h.2⟩

/-! ## One search -/

/-- **What a search from `target` holds** — nodes of the tree of `target`; the node that it would
swing a link to is smaller than the one that it swings. -/
def Search.Sound (forest : Forest) (target : Nat) : Search → Prop
  | .atNode node => Near forest target node
  | .atParent node parent => Near forest target node ∧ Near forest target parent ∧ parent < node
  | .halving node _ grand => Near forest target node ∧ Near forest target grand ∧ grand < node

theorem Search.Sound.advance {search : Search} (h : search.Sound forest target)
    (hadvances : Advances linked forest forest') : search.Sound forest' target := by
  cases search with
  | atNode node => exact Near.advance h hadvances
  | atParent node parent => exact ⟨h.1.advance hadvances, h.2.1.advance hadvances, h.2.2⟩
  | halving node parent grand => exact ⟨h.1.advance hadvances, h.2.1.advance hadvances, h.2.2⟩

/-- What a step of a search from `target` leads to. -/
def Outcome.Sound (forest : Forest) (target : Nat) : Outcome → Prop
  | .continues search => search.Sound forest target
  | .root node => Near forest target node

theorem load_parents (forest : Forest) (node : Nat) :
    load forest.parents node = forest.parentOf node := rfl

variable (linked) in
/-- **A step of a search** changes no root. -/
theorem Search.Sound.step {search : Search} (h : search.Sound forest target) (fails : Bool) :
    ∃ forest' : Forest, forest'.parents = (search.step forest.parents fails).1
      ∧ Advances linked forest forest'
      ∧ (search.step forest.parents fails).2.Sound forest' target := by
  have hstay : Advances linked forest forest := .of_rootOf_eq rfl fun _ => rfl
  cases search with
  | atNode node =>
    refine ⟨forest, rfl, hstay, ?_⟩
    rw [Search.step, load_parents]
    dsimp only
    split
    · exact h
    · next hne =>
      exact ⟨h, Near.parentOf h, Nat.lt_of_le_of_ne (forest.parentOf_le node) hne⟩
  | atParent node parent =>
    obtain ⟨hnode, hparent, hlt⟩ := h
    refine ⟨forest, rfl, hstay, ?_⟩
    rw [Search.step, load_parents]
    dsimp only
    split
    · exact hparent.parentOf
    · exact ⟨hnode, hparent.parentOf, Nat.lt_of_le_of_lt (forest.parentOf_le parent) hlt⟩
  | halving node parent grand =>
    obtain ⟨hnode, hgrand, hlt⟩ := h
    by_cases hswings : fails = false ∧ forest.parentOf node = parent
    · -- the link may have come back to `parent` in between: `grand` is in the tree all the same
      have hroots := rootOf_link_of_rootOf_eq hlt (hgrand.2.trans hnode.2.symm)
      have hadvances : Advances linked forest (forest.link node grand (Nat.le_of_lt hlt)) :=
        .of_rootOf_eq (size_link _) hroots
      refine ⟨_, ?_, hadvances, hgrand.advance hadvances⟩
      rw [Search.step, hswings.1, if_neg Bool.false_ne_true, swap, load_parents, if_pos hswings.2]
      rfl
    · refine ⟨forest, ?_, hstay, hgrand⟩
      rw [Search.step, swap, load_parents]
      cases fails with
      | true => rfl
      | false => rw [if_neg Bool.false_ne_true, if_neg fun heq => hswings ⟨rfl, heq⟩]

/-! ## One edge -/

/-- **What a worker that merges the sets of an edge knows** — the roots that it has found were in
the trees of the two ends, and still are. -/
def Control.Sound (forest : Forest) (edge : Nat × Nat) : Control → Prop
  | .first search => search.Sound forest edge.1
  | .second root search => Near forest edge.1 root ∧ search.Sound forest edge.2
  | .linking low high => low < high
      ∧ (Near forest edge.1 low ∧ Near forest edge.2 high
        ∨ Near forest edge.2 low ∧ Near forest edge.1 high)

theorem Control.Sound.advance {control : Control} (h : control.Sound forest edge)
    (hadvances : Advances linked forest forest') : control.Sound forest' edge := by
  cases control with
  | first search => exact Search.Sound.advance h hadvances
  | second root search => exact ⟨h.1.advance hadvances, h.2.advance hadvances⟩
  | linking low high =>
    exact ⟨h.1, h.2.imp (fun h => ⟨h.1.advance hadvances, h.2.advance hadvances⟩)
      fun h => ⟨h.1.advance hadvances, h.2.advance hadvances⟩⟩

/-- Two different roots, the smaller one first. -/
theorem Control.sound_linking {a b : Nat} (ha : Near forest edge.1 a) (hb : Near forest edge.2 b)
    (hne : a ≠ b) : (Control.linking (Nat.min a b) (Nat.max a b)).Sound forest edge := by
  rcases Nat.lt_or_gt_of_ne hne with hlt | hlt
  · have hmin : Nat.min a b = a := Nat.min_eq_left hlt.le
    have hmax : Nat.max a b = b := Nat.max_eq_right hlt.le
    rw [hmin, hmax]
    exact ⟨hlt, .inl ⟨ha, hb⟩⟩
  · have hmin : Nat.min a b = b := Nat.min_eq_right hlt.le
    have hmax : Nat.max a b = a := Nat.max_eq_left hlt.le
    rw [hmin, hmax]
    exact ⟨hlt, .inr ⟨hb, ha⟩⟩

/-- **Linking a root under a node of the other tree** joins the two trees. -/
theorem advances_link (hequiv : Equivalence linked) {a b low high : Nat} (hlinked : linked b a)
    (hlow : Near forest a low) (hhigh : Near forest b high) (hlt : low < high)
    (hsize : b < forest.parents.size) (hroot : forest.parentOf high = high) :
    Advances linked forest (forest.link high low (Nat.le_of_lt hlt))
      ∧ (forest.link high low (Nat.le_of_lt hlt)).rootOf a
        = (forest.link high low (Nat.le_of_lt hlt)).rootOf b := by
  have hroots := rootOf_link_of_lt hlt (Nat.lt_of_le_of_lt hhigh.1 hsize) hroot
  have hb : forest.rootOf b = high := by rw [← hhigh.2, rootOf_of_isRoot hroot]
  refine ⟨⟨size_link _, fun {x y} heq => by rw [hroots, hroots, heq], fun hsound x => ?_⟩, ?_⟩
  · rw [hroots]
    split
    · next heq =>
      have hhigh : linked x b := hequiv.trans (hsound x) (heq ▸ hb ▸ hequiv.symm (hsound b))
      exact hequiv.trans hhigh (hequiv.trans hlinked (hlow.2 ▸ hsound a))
    · exact hsound x
  · rw [hroots, hroots, if_pos hb, ← hlow.2, ite_self]

/-- **A step of a merge** — it goes on, or the two ends have the same root. -/
theorem Control.Sound.step {control : Control} (h : control.Sound forest edge)
    (hequiv : Equivalence linked) (hlinked : linked edge.1 edge.2)
    (hfirst : edge.1 < forest.parents.size) (hsecond : edge.2 < forest.parents.size)
    (fails : Bool) :
    ∃ forest' : Forest, forest'.parents = (control.step edge forest.parents fails).1
      ∧ Advances linked forest forest'
      ∧ (∀ next, (control.step edge forest.parents fails).2 = some next → next.Sound forest' edge)
      ∧ ((control.step edge forest.parents fails).2 = none →
        forest'.rootOf edge.1 = forest'.rootOf edge.2) := by
  cases control with
  | first search =>
    obtain ⟨forest', hparents, hadvances, hsound⟩ := Search.Sound.step linked h fails
    rw [Control.step]
    rcases hstep : search.step forest.parents fails with ⟨parents, next | root⟩
    · rw [hstep] at hparents hsound
      exact ⟨forest', hparents, hadvances, fun _ heq => Option.some.inj heq ▸ hsound, nofun⟩
    · rw [hstep] at hparents hsound
      exact ⟨forest', hparents, hadvances,
        fun _ heq => Option.some.inj heq ▸ ⟨hsound, Near.refl forest' edge.2⟩, nofun⟩
  | second root search =>
    obtain ⟨hroot, hsearch⟩ := h
    obtain ⟨forest', hparents, hadvances, hsound⟩ := Search.Sound.step linked hsearch fails
    have hroot : Near forest' edge.1 root := hroot.advance hadvances
    rw [Control.step]
    rcases hstep : search.step forest.parents fails with ⟨parents, next | other⟩
    · rw [hstep] at hparents hsound
      exact ⟨forest', hparents, hadvances,
        fun _ heq => Option.some.inj heq ▸ ⟨hroot, hsound⟩, nofun⟩
    · rw [hstep] at hparents hsound
      have hother : Near forest' edge.2 other := hsound
      refine ⟨forest', hparents, hadvances, ?_⟩
      dsimp only
      split
      · next heq =>
        refine ⟨nofun, fun _ => ?_⟩
        rw [← hroot.2, heq, hother.2]
      · next hne =>
        exact ⟨fun _ heq => Option.some.inj heq ▸ Control.sound_linking hroot hother hne, nofun⟩
  | linking low high =>
    obtain ⟨hlt, hnear⟩ := h
    rw [Control.step, load_parents]
    by_cases hroot : forest.parentOf high = high
    · rw [if_pos hroot, swap, load_parents, if_pos hroot]
      rcases hnear with ⟨hlow, hhigh⟩ | ⟨hlow, hhigh⟩
      · obtain ⟨hadvances, hsame⟩ :=
          advances_link hequiv (hequiv.symm hlinked) hlow hhigh hlt hsecond hroot
        exact ⟨_, rfl, hadvances, nofun, fun _ => hsame⟩
      · obtain ⟨hadvances, hsame⟩ := advances_link hequiv hlinked hlow hhigh hlt hfirst hroot
        exact ⟨_, rfl, hadvances, nofun, fun _ => hsame.symm⟩
    · rw [if_neg hroot]
      exact ⟨forest, rfl, .of_rootOf_eq rfl fun _ => rfl,
        fun _ heq => Option.some.inj heq ▸ Near.refl forest edge.1, nofun⟩

/-! ## One worker -/

/-- The edge that a worker is merging. -/
def Worker.inHand (worker : Worker) : List (Nat × Nat) :=
  (worker.current.map Prod.fst).toList

/-- **The edges of its share that a worker has taken up** so far. -/
def Worker.begun (worker : Worker) (share : List (Nat × Nat)) : List (Nat × Nat) :=
  share.take (share.length - worker.waiting.length)

/-- **Where a worker stands in its share** — the ends of the edges that it has merged have the same
roots, and it knows what it should about the edge in hand. -/
structure Worker.Sound (forest : Forest) (share : List (Nat × Nat)) (worker : Worker) : Prop where
  divides : ∃ merged, share = merged ++ worker.inHand ++ worker.waiting
    ∧ ∀ edge ∈ merged, forest.rootOf edge.1 = forest.rootOf edge.2
  control : ∀ {edge control}, worker.current = some (edge, control) → control.Sound forest edge

section Worker

variable {worker : Worker} {share : List (Nat × Nat)}

theorem Worker.Sound.advance (h : worker.Sound forest share)
    (hadvances : Advances linked forest forest') : worker.Sound forest' share where
  divides := by
    obtain ⟨merged, hshare, hmerged⟩ := h.divides
    exact ⟨merged, hshare, fun edge hedge => hadvances.joined (hmerged edge hedge)⟩
  control hcurrent := (h.control hcurrent).advance hadvances

theorem Worker.begun_eq {merged : List (Nat × Nat)}
    (h : share = merged ++ worker.inHand ++ worker.waiting) :
    worker.begun share = merged ++ worker.inHand := by
  have hlength : share.length - worker.waiting.length = (merged ++ worker.inHand).length := by
    rw [h, List.length_append, Nat.add_sub_cancel]
  rw [begun, hlength, h, List.take_left]

theorem Worker.begun_subset (worker : Worker) (share : List (Nat × Nat)) :
    worker.begun share ⊆ share :=
  List.take_subset _ _

/-- No edge is given back. -/
theorem Worker.begun_step (worker : Worker) (share : List (Nat × Nat)) (parents : Array Nat)
    (fails : Bool) : worker.begun share ⊆ (worker.step parents fails).2.begun share := by
  have hwaiting : (worker.step parents fails).2.waiting.length ≤ worker.waiting.length := by
    obtain ⟨waiting, current⟩ := worker
    cases current with
    | some current => exact Nat.le_refl _
    | none =>
      cases waiting with
      | nil => exact Nat.le_refl _
      | cons edge waiting => exact Nat.le_succ _
  exact (List.take_prefix_take_left (Nat.sub_le_sub_left hwaiting _)).subset

/-- **A step of a worker.** -/
theorem Worker.Sound.step (h : worker.Sound forest share) (hequiv : Equivalence linked)
    (hlinked : ∀ edge ∈ worker.begun share, linked edge.1 edge.2)
    (hrange : ∀ edge ∈ share, edge.1 < forest.parents.size ∧ edge.2 < forest.parents.size)
    (fails : Bool) :
    ∃ forest' : Forest, forest'.parents = (worker.step forest.parents fails).1
      ∧ Advances linked forest forest'
      ∧ (worker.step forest.parents fails).2.Sound forest' share := by
  obtain ⟨merged, hshare, hmerged⟩ := h.divides
  have hstay : Advances linked forest forest := .of_rootOf_eq rfl fun _ => rfl
  rcases worker with ⟨waiting, - | ⟨edge, control⟩⟩
  · cases waiting with
    | nil => exact ⟨forest, rfl, hstay, h⟩
    | cons edge waiting =>
      refine ⟨forest, rfl, hstay, ⟨merged, ?_, hmerged⟩, fun heq => ?_⟩
      · rw [hshare, List.append_assoc, List.append_assoc]
        rfl
      · obtain ⟨rfl, rfl⟩ := Prod.mk.inj (Option.some.inj heq)
        exact Near.refl forest _
  · have hedge : edge ∈ Worker.begun ⟨waiting, some (edge, control)⟩ share := by
      rw [begun_eq hshare]
      exact List.mem_append_right merged (List.mem_singleton_self edge)
    obtain ⟨hfirst, hsecond⟩ := hrange edge (begun_subset _ share hedge)
    obtain ⟨forest', hparents, hadvances, hnext, hdone⟩ :=
      Control.Sound.step (h.control rfl) hequiv (hlinked edge hedge) hfirst hsecond fails
    have hmerged' : ∀ edge ∈ merged, forest'.rootOf edge.1 = forest'.rootOf edge.2 :=
      fun edge hedge => hadvances.joined (hmerged edge hedge)
    rw [Worker.step]
    dsimp only
    rcases hstep : control.step edge forest.parents fails with ⟨parents, - | next⟩
    · rw [hstep] at hparents hdone
      refine ⟨forest', hparents, hadvances, ⟨merged ++ [edge], ?_, fun other hother => ?_⟩, nofun⟩
      · rw [hshare]
        exact congrArg (· ++ waiting) (List.append_nil _).symm
      · rcases List.mem_append.mp hother with hother | hother
        · exact hmerged' other hother
        · exact List.mem_singleton.mp hother ▸ hdone rfl
    · rw [hstep] at hparents hnext
      refine ⟨forest', hparents, hadvances, ⟨merged, hshare, hmerged'⟩, fun heq => ?_⟩
      obtain ⟨rfl, rfl⟩ := Prod.mk.inj (Option.some.inj heq)
      exact hnext _ rfl

end Worker

/-! ## All workers -/

namespace Machine

/-- **The edges that have been taken up** so far, by all workers. -/
def begun (machine : Machine) (shares : List (List (Nat × Nat))) : List (Nat × Nat) :=
  (machine.workers.zip shares).flatMap fun entry => entry.1.begun entry.2

variable {machine : Machine} {shares : List (List (Nat × Nat))}

theorem mem_begun_iff : edge ∈ machine.begun shares ↔ ∃ (k : Nat) (worker : Worker) (share : _),
    machine.workers[k]? = some worker ∧ shares[k]? = some share ∧ edge ∈ worker.begun share := by
  rw [begun, List.mem_flatMap]
  constructor
  · rintro ⟨⟨worker, share⟩, hmem, hedge⟩
    obtain ⟨k, hk⟩ := List.mem_iff_getElem?.mp hmem
    obtain ⟨hworker, hshare⟩ := List.getElem?_zip_eq_some.mp hk
    exact ⟨k, worker, share, hworker, hshare, hedge⟩
  · rintro ⟨k, worker, share, hworker, hshare, hedge⟩
    have hk : (machine.workers.zip shares)[k]? = some (worker, share) :=
      List.getElem?_zip_eq_some.mpr ⟨hworker, hshare⟩
    exact ⟨(worker, share), List.mem_of_getElem? hk, hedge⟩

theorem begun_subset (machine : Machine) (shares : List (List (Nat × Nat))) :
    machine.begun shares ⊆ shares.flatten := fun edge hedge => by
  obtain ⟨k, worker, share, -, hshare, hedge⟩ := mem_begun_iff.mp hedge
  exact List.mem_flatten.mpr ⟨share, List.mem_of_getElem? hshare, worker.begun_subset share hedge⟩

/-- **Only the worker that moves** changes. -/
theorem getElem?_workers_step {move : Nat × Bool} {worker : Worker}
    (h : machine.workers[move.1]? = some worker) (k : Nat) :
    (machine.step move).workers[k]?
      = if k = move.1 then some (worker.step machine.parents move.2).2
        else machine.workers[k]? := by
  have hlt := (List.getElem?_eq_some_iff.mp h).1
  rw [Machine.step, h]
  dsimp only
  by_cases hk : k = move.1
  · rw [if_pos hk, hk, List.getElem?_set_self hlt]
  · rw [if_neg hk, List.getElem?_set_ne (Ne.symm hk)]

/-- No worker gives an edge back. -/
theorem begun_step (machine : Machine) (shares : List (List (Nat × Nat))) (move : Nat × Bool) :
    machine.begun shares ⊆ (machine.step move).begun shares := fun edge hedge => by
  rcases hworker : machine.workers[move.1]? with - | worker
  · rwa [Machine.step, hworker]
  obtain ⟨k, other, share, hother, hshare, hedge⟩ := mem_begun_iff.mp hedge
  have hstep := getElem?_workers_step hworker k
  by_cases hk : k = move.1
  · obtain rfl : worker = other := Option.some.inj (hworker.symm.trans (hk ▸ hother))
    rw [if_pos hk] at hstep
    exact mem_begun_iff.mpr ⟨k, _, share, hstep, hshare, worker.begun_step share _ _ hedge⟩
  · rw [if_neg hk] at hstep
    exact mem_begun_iff.mpr ⟨k, other, share, hstep.trans hother, hshare, hedge⟩

/-- **What holds between any two steps** — the parents are a forest whose trees lie within the
classes of the edges taken up, and every worker stands where it should. -/
structure Coherent (size : Nat) (shares : List (List (Nat × Nat))) (machine : Machine)
    (forest : Forest) : Prop where
  parents_eq : forest.parents = machine.parents
  size_eq : forest.parents.size = size
  linked : ∀ node, Linked size (machine.begun shares) node (forest.rootOf node)
  length_eq : machine.workers.length = shares.length
  workers : ∀ {k : Nat} {worker : Worker} {share : List (Nat × Nat)},
    machine.workers[k]? = some worker → shares[k]? = some share → worker.Sound forest share

/-- Before the first step. -/
theorem coherent_start (size : Nat) (shares : List (List (Nat × Nat))) :
    Coherent size shares (start size shares) (singletons size) where
  parents_eq := rfl
  size_eq := Array.size_range
  linked := (merged_singletons (linked_equivalence size _)).sound
  length_eq := List.length_map _
  workers {k worker share} hworker hshare := by
    rw [start, List.getElem?_map, hshare] at hworker
    obtain rfl := Option.some.inj hworker
    exact ⟨⟨[], rfl, nofun⟩, nofun⟩

section Step

variable (hrange : ∀ share ∈ shares, ∀ edge ∈ share, edge.1 < size ∧ edge.2 < size)

include hrange

/-- **One step.** -/
theorem Coherent.step {machine : Machine} (h : Coherent size shares machine forest)
    (move : Nat × Bool) : ∃ forest', Coherent size shares (machine.step move) forest' := by
  rcases hworker : machine.workers[move.1]? with - | worker
  · refine ⟨forest, ?_⟩
    rwa [Machine.step, hworker]
  have hlt : move.1 < shares.length := h.length_eq ▸ (List.getElem?_eq_some_iff.mp hworker).1
  obtain ⟨share, hshare⟩ : ∃ share, shares[move.1]? = some share :=
    ⟨_, List.getElem?_eq_getElem hlt⟩
  have hrange := hrange share (List.mem_of_getElem? hshare)
  have hlinked : ∀ edge ∈ worker.begun share,
      Linked size (machine.begun shares) edge.1 edge.2 := fun edge hedge => by
    have hbegun := mem_begun_iff.mpr ⟨move.1, worker, share, hworker, hshare, hedge⟩
    by_cases heq : edge.1 = edge.2
    · exact heq ▸ (linked_equivalence size _).refl edge.1
    · exact .rel _ _ ⟨hbegun, heq, hrange edge (worker.begun_subset share hedge)⟩
  obtain ⟨forest', hparents, hadvances, hsound⟩ := (h.workers hworker hshare).step
    (linked_equivalence size _) hlinked (by rwa [h.size_eq]) move.2
  rw [h.parents_eq] at hparents hsound
  refine ⟨forest', ?_, hadvances.size_eq.trans h.size_eq, fun node => ?_, ?_, ?_⟩
  · rw [hparents, Machine.step, hworker]
  · exact (hadvances.sound h.linked node).mono (machine.begun_step shares move)
  · rw [Machine.step, hworker]
    exact List.length_set.trans h.length_eq
  · intro k other share' hother hshare'
    rw [getElem?_workers_step hworker] at hother
    split at hother
    · next hk =>
      obtain rfl := Option.some.inj hother
      obtain rfl := Option.some.inj (hshare.symm.trans (hk ▸ hshare'))
      exact hsound
    · exact (h.workers hother hshare').advance hadvances

/-- **All steps.** -/
theorem Coherent.run {machine : Machine} (h : Coherent size shares machine forest)
    (moves : List (Nat × Bool)) : ∃ forest', Coherent size shares (machine.run moves) forest' := by
  induction moves generalizing machine forest with
  | nil => exact ⟨forest, h⟩
  | cons move moves ih =>
    obtain ⟨forest', h'⟩ := h.step hrange move
    exact ih h'

end Step

/-- **When all merges have returned**, the trees are those of all edges. -/
theorem Coherent.merged {machine : Machine} (h : Coherent size shares machine forest)
    (hdone : machine.isDone = true) :
    Merged (Linked size shares.flatten) size shares.flatten forest where
  size_eq := h.size_eq
  sound node := (h.linked node).mono (machine.begun_subset shares)
  joins edge hedge := by
    obtain ⟨share, hmem, hedge⟩ := List.mem_flatten.mp hedge
    obtain ⟨k, hshare⟩ := List.mem_iff_getElem?.mp hmem
    have hlt : k < machine.workers.length :=
      h.length_eq ▸ (List.getElem?_eq_some_iff.mp hshare).1
    obtain ⟨merged, heq, hmerged⟩ := (h.workers (List.getElem?_eq_getElem hlt) hshare).divides
    have hidle := List.all_eq_true.mp hdone _ (List.getElem_mem hlt)
    rw [Bool.and_eq_true, List.isEmpty_iff, Option.isNone_iff_eq_none] at hidle
    rw [Worker.inHand, hidle.1, hidle.2, List.append_nil] at heq
    exact hmerged edge (by simpa [heq] using hedge)

/-- **Merging without locks finds the classes of linked nodes.**

Whatever the shares of the workers, and in whatever order they take their steps, no parent ever
exceeds its node, and the two are linked by edges that have been taken up.  When all merges have
returned, two nodes have the same root exactly if they are linked, and the root is the smallest node
of its class. -/
theorem merges_under_every_interleaving (size : Nat) (shares : List (List (Nat × Nat)))
    (hrange : ∀ share ∈ shares, ∀ edge ∈ share, edge.1 < size ∧ edge.2 < size)
    (moves : List (Nat × Bool)) :
    let machine := (start size shares).run moves
    machine.parents.size = size
      ∧ (∀ node, load machine.parents node ≤ node
        ∧ Linked size (machine.begun shares) node (load machine.parents node))
      ∧ (machine.isDone = true → ∃ forest : Forest, forest.parents = machine.parents
        ∧ ∀ a b, ((forest.find a).1 = (forest.find b).1 ↔ Linked size shares.flatten a b)
          ∧ Linked size shares.flatten a (forest.find a).1
          ∧ (Linked size shares.flatten a b → (forest.find a).1 ≤ b)) := by
  intro machine
  obtain ⟨forest, h⟩ := (coherent_start size shares).run hrange moves
  have hparents : forest.parents = machine.parents := h.parents_eq
  have hload : ∀ node, load machine.parents node = forest.parentOf node := fun node => by
    rw [← hparents, load_parents]
  refine ⟨hparents ▸ h.size_eq, fun node => ?_, fun hdone => ⟨forest, hparents, fun a b => ?_⟩⟩
  · have hequiv := linked_equivalence size (machine.begun shares)
    have hparent : Linked size (machine.begun shares) (forest.parentOf node) (forest.rootOf node) :=
      forest.rootOf_parentOf node ▸ h.linked (forest.parentOf node)
    rw [hload]
    exact ⟨forest.parentOf_le node, hequiv.trans (h.linked node) (hequiv.symm hparent)⟩
  · have hmerged := h.merged hdone
    have hroots : forest.rootOf a = forest.rootOf b ↔ Linked size shares.flatten a b :=
      hmerged.rootOf_eq_iff And.left
    rw [(forest.find_spec a).1, (forest.find_spec b).1]
    exact ⟨hroots, hmerged.sound a, fun hab => hroots.mpr hab ▸ forest.rootOf_le b⟩

/-- Two workers link the same root: the second finds it taken and starts again, and a swing fails
for no reason. -/
theorem merges_under_a_lost_race :
    let shares := [[(2, 1), (2, 1)], [(2, 0)]]
    let moves := [(0, false), (0, false), (0, false), (1, false), (1, false), (1, false),
      (0, false)] ++ List.replicate 6 (1, false) ++ List.replicate 10 (0, true)
    let machine := (start 3 shares).run moves
    (∀ share ∈ shares, ∀ edge ∈ share, edge.1 < 3 ∧ edge.2 < 3)
      ∧ machine.isDone = true ∧ machine.parents = #[0, 0, 1]
      ∧ Linked 3 (machine.begun shares) 2 (load machine.parents 2)
      ∧ ∃ forest : Forest, forest.parents = machine.parents ∧ (forest.find 2).1 = 0 := by
  intro shares moves machine
  have hrange : ∀ share ∈ shares, ∀ edge ∈ share, edge.1 < 3 ∧ edge.2 < 3 := by decide
  have hdone : machine.isDone = true := by decide
  obtain ⟨-, hparent, hroots⟩ := merges_under_every_interleaving 3 shares hrange moves
  obtain ⟨forest, hforest, hroots⟩ := hroots hdone
  have hlinked : Linked 3 shares.flatten 2 0 :=
    .rel 2 0 ⟨by decide, by decide, by decide, by decide⟩
  exact ⟨hrange, hdone, by decide, (hparent 2).2, forest, hforest,
    Nat.le_zero.mp ((hroots 2 0).2.2 hlinked)⟩

/-- **A race finds the components of a graph** whose edges are shared out in any way. -/
theorem components_of_race {nodes : Nat} {edges : List (Nat × Nat)}
    (hshares : shares.flatten.Perm (ofEdges nodes edges).edges.toList) {moves : List (Nat × Bool)}
    (hdone : ((start nodes shares).run moves).isDone = true) :
    ∃ forest : Forest, forest.parents = ((start nodes shares).run moves).parents
      ∧ arrange (forest.members nodes
          ((List.range nodes).filter fun node => (ofEdges nodes edges).degree node != 0))
        = (ofEdges nodes edges).components := by
  have hgraph := represents_ofEdges nodes edges
  have hmem : ∀ edge, edge ∈ shares.flatten ↔ Joined nodes edges edge.1 edge.2 := fun edge => by
    rw [hshares.mem_iff, ← Array.mem_def, ← hgraph.edge_iff]
  have hrange : ∀ share ∈ shares, ∀ edge ∈ share, edge.1 < nodes ∧ edge.2 < nodes :=
    fun share hshare edge hedge =>
      ((hmem edge).mp (List.mem_flatten.mpr ⟨share, hshare, hedge⟩)).2.2
  have hjoined : Joined nodes shares.flatten = Joined nodes edges := by
    funext a b
    refine propext ⟨fun h => (hmem (a, b)).mp h.1, fun h => ⟨(hmem (a, b)).mpr h, h.2⟩⟩
  obtain ⟨forest, h⟩ := (coherent_start nodes shares).run hrange moves
  have hmerged := h.merged hdone
  rw [Linked, hjoined] at hmerged
  refine ⟨forest, h.parents_eq, ?_⟩
  have hclasses := hgraph.listsClasses_members hshares hmerged
  rw [hgraph.nodeCount_eq] at hclasses
  exact hclasses.unique (listsClasses_components hgraph)

end Machine

end CodeClones.Race
