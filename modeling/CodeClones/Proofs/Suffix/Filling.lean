import Mathlib

/-!
# Proofs/Suffix/Filling — filling slots segment by segment

The sweeps of induced sorting and its seeding, seen without arrays.  Slots are numbered in the order
in which they are met.  Every position belongs to a *segment* of slots, and the segments follow each
other without gaps, each with as many slots as it has positions.  A `Course` says which positions
are placed and which order is to result; placing one puts it into the next free slot of its segment.

`Good` is what every such step preserves: the filled slots are in order.  A sweep visits the slots
one after the other and places the position ahead of each position it meets; `Swept` adds to `Good`
which positions have been placed by then (`Swept.visit`), and after the last slot all of them have
(`Swept.mem_placed`).
-/

namespace CodeClones.Suffix

/-- **A task of filling slots** — the segment of every position, the positions to be placed, and the
order to be established.  Positions of a lower segment come first. -/
structure Course where
  segments : List Nat
  moves : Nat → Bool
  before : Nat → Nat → Prop
  irrefl : ∀ i, ¬ before i i
  before_of_segment_lt : ∀ {i j : Nat}, i < segments.length → j < segments.length →
    segments.getD i 0 < segments.getD j 0 → before i j
  moves_of_segment_eq : ∀ {i j : Nat}, i < segments.length → j < segments.length →
    segments.getD i 0 = segments.getD j 0 → moves i = true → moves j = true

/-- Slots filled so far, and the positions placed, the latest first. -/
structure Filling where
  slot : Nat → Option Nat
  placed : List Nat

/-- Counting below a bound, one further. -/
theorem countP_lt_succ (values : List Nat) (g : Nat) :
    (values.countP fun h => decide (h < g + 1))
      = (values.countP fun h => decide (h < g)) + values.count g := by
  induction values with
  | nil => rfl
  | cons h values ih =>
    rw [List.countP_cons, List.countP_cons, List.count_cons, ih]
    simp only [decide_eq_true_eq, beq_iff_eq]
    split <;> split <;> split <;> omega

namespace Course

variable (c : Course)

def size : Nat := c.segments.length

def segment (i : Nat) : Nat := c.segments.getD i 0

/-- The first slot of a segment. -/
def start (g : Nat) : Nat := c.segments.countP fun h => decide (h < g)

/-- The next free slot of a segment. -/
def next (f : Filling) (g : Nat) : Nat := c.start g + f.placed.countP fun i => c.segment i == g

/-- **Place a position** in the next free slot of its segment. -/
def put (f : Filling) (i : Nat) : Filling where
  slot := Function.update f.slot (c.next f (c.segment i)) (some i)
  placed := i :: f.placed

/-! ## Segments -/

theorem start_succ (g : Nat) : c.start (g + 1) = c.start g + c.segments.count g :=
  countP_lt_succ c.segments g

theorem start_mono {g h : Nat} (hgh : g ≤ h) : c.start g ≤ c.start h := by
  refine List.countP_mono_left fun s _ hs => ?_
  simp only [decide_eq_true_eq] at hs ⊢
  omega

theorem start_le_size (g : Nat) : c.start g ≤ c.size := List.countP_le_length

theorem map_segment_range : (List.range c.size).map c.segment = c.segments := by
  refine List.ext_getElem (by simp [size]) fun i h1 h2 => ?_
  simp [segment, List.getD_eq_getElem?_getD, h2]

/-- Different positions of one segment fit into it. -/
theorem countP_segment_le (positions : List Nat) (hnodup : positions.Nodup)
    (hlt : ∀ i ∈ positions, i < c.size) (g : Nat) :
    (positions.countP fun i => c.segment i == g) ≤ c.segments.count g := by
  have hsub : positions.Subperm (List.range c.size) :=
    List.subperm_of_subset hnodup fun i hi => List.mem_range.mpr (hlt i hi)
  calc (positions.countP fun i => c.segment i == g)
      ≤ (List.range c.size).countP fun i => c.segment i == g := hsub.countP_le _
    _ = ((List.range c.size).map c.segment).count g := by rw [List.count, List.countP_map]; rfl
    _ = c.segments.count g := by rw [map_segment_range]

/-! ## Placing one position -/

/-- **What every placement preserves** — a filled slot lies in the segment of its position, the
placed positions stand at the front of their segments, and the filled slots are in order. -/
structure Good (f : Filling) : Prop where
  nodup : f.placed.Nodup
  moved : ∀ {i : Nat}, i ∈ f.placed → i < c.size ∧ c.moves i = true
  kept : ∀ {i : Nat}, i ∈ f.placed → ∃ p, f.slot p = some i
  within : ∀ {p i : Nat}, f.slot p = some i →
    i < c.size ∧ c.start (c.segment i) ≤ p ∧ p < c.start (c.segment i + 1)
  front : ∀ {p i : Nat}, f.slot p = some i → c.moves i = true →
    i ∈ f.placed ∧ p < c.next f (c.segment i)
  sorted : ∀ {p q i j : Nat}, p < q → f.slot p = some i → f.slot q = some j → c.before i j

variable {c} {f : Filling} {i j p q : Nat}

namespace Good

/-- There is room for a position that is not placed yet. -/
theorem next_lt (hf : c.Good f) (hi : i < c.size) (hnew : i ∉ f.placed) :
    c.next f (c.segment i) < c.start (c.segment i + 1) := by
  have hroom := c.countP_segment_le (i :: f.placed)
    (List.nodup_cons.mpr ⟨hnew, hf.nodup⟩)
    (fun k hk => by
      rcases List.mem_cons.mp hk with rfl | hk
      · exact hi
      · exact (hf.moved hk).1) (c.segment i)
  rw [List.countP_cons, if_pos (by simp)] at hroom
  rw [next, start_succ]
  omega

theorem next_lt_size (hf : c.Good f) (hi : i < c.size) (hnew : i ∉ f.placed) :
    c.next f (c.segment i) < c.size :=
  Nat.lt_of_lt_of_le (hf.next_lt hi hnew) (c.start_le_size _)

/-- A filled slot before another one belongs to a segment that is not later. -/
theorem segment_le (hf : c.Good f) (hp : f.slot p = some j) {g : Nat} (hpg : p < c.start (g + 1)) :
    c.segment j ≤ g := by
  by_contra hlt
  have h1 := (hf.within hp).2.1
  have h2 := c.start_mono (show g + 1 ≤ c.segment j by omega)
  omega

/-- A filled slot after another one belongs to a segment that is not earlier. -/
theorem le_segment (hf : c.Good f) (hp : f.slot p = some j) {g : Nat} (hgp : c.start g ≤ p) :
    g ≤ c.segment j := by
  by_contra hlt
  have h1 := (hf.within hp).2.2
  have h2 := c.start_mono (show c.segment j + 1 ≤ g by omega)
  omega

/-- What stands in a segment of placed positions is placed. -/
theorem moves_of_segment_eq (hi : i < c.size) (hmoves : c.moves i = true) (hj : j < c.size)
    (h : c.segment j = c.segment i) : c.moves j = true :=
  c.moves_of_segment_eq hi hj h.symm hmoves

/-- The next slot of a segment of placed positions, and all later ones of it, are free. -/
theorem not_next_le (hf : c.Good f) (hi : i < c.size) (hmoves : c.moves i = true)
    (hp : f.slot p = some j) (hseg : c.segment j = c.segment i) :
    p < c.next f (c.segment i) := by
  rw [← hseg]
  exact (hf.front hp (moves_of_segment_eq hi hmoves (hf.within hp).1 hseg)).2

theorem slot_next (hf : c.Good f) (hi : i < c.size) (hmoves : c.moves i = true)
    (hnew : i ∉ f.placed) : f.slot (c.next f (c.segment i)) = none := by
  by_contra hfull
  obtain ⟨j, hj⟩ := Option.ne_none_iff_exists'.mp hfull
  have hle := hf.segment_le hj (hf.next_lt hi hnew)
  have hge := hf.le_segment hj (Nat.le_add_right _ _)
  have := hf.not_next_le hi hmoves hj (by omega)
  omega

end Good

@[simp] theorem slot_put_self : (c.put f i).slot (c.next f (c.segment i)) = some i :=
  Function.update_self ..

theorem slot_put_of_ne (h : p ≠ c.next f (c.segment i)) : (c.put f i).slot p = f.slot p :=
  Function.update_of_ne h ..

/-- Slots that are filled stay as they are. -/
theorem slot_put_of_slot (hf : c.Good f) (hi : i < c.size) (hmoves : c.moves i = true)
    (hnew : i ∉ f.placed) (hp : f.slot p = some j) : (c.put f i).slot p = some j := by
  have hne : p ≠ c.next f (c.segment i) := by
    rintro rfl
    rw [hf.slot_next hi hmoves hnew] at hp
    exact absurd hp (by simp)
  rw [slot_put_of_ne hne, hp]

/-- A slot filled after a placement was filled before or is the new one. -/
theorem slot_put_eq_some (hp : (c.put f i).slot p = some j) :
    (p = c.next f (c.segment i) ∧ j = i) ∨ f.slot p = some j := by
  by_cases h : p = c.next f (c.segment i)
  · subst h
    rw [slot_put_self] at hp
    exact Or.inl ⟨rfl, (Option.some.inj hp).symm⟩
  · rw [slot_put_of_ne h] at hp
    exact Or.inr hp

theorem next_le_next_put (g : Nat) : c.next f g ≤ c.next (c.put f i) g := by
  rw [next, next, put, List.countP_cons]
  omega

theorem next_put_self : c.next (c.put f i) (c.segment i) = c.next f (c.segment i) + 1 := by
  rw [next, next, put, List.countP_cons, if_pos (by simp)]
  omega

theorem next_put_of_ne {g : Nat} (h : c.segment i ≠ g) : c.next (c.put f i) g = c.next f g := by
  rw [next, next, put, List.countP_cons, if_neg (by simpa using h)]
  omega

/-- **Placing a position keeps the slots in order** — provided that it comes after what its segment
holds already. -/
theorem Good.put (hf : c.Good f) (hi : i < c.size) (hmoves : c.moves i = true)
    (hnew : i ∉ f.placed) (hlast : ∀ j ∈ f.placed, c.segment j = c.segment i → c.before j i) :
    c.Good (c.put f i) where
  nodup := List.nodup_cons.mpr ⟨hnew, hf.nodup⟩
  moved hk := by
    rcases List.mem_cons.mp hk with rfl | hk
    · exact ⟨hi, hmoves⟩
    · exact hf.moved hk
  kept hk := by
    rcases List.mem_cons.mp hk with rfl | hk
    · exact ⟨_, slot_put_self⟩
    · obtain ⟨p, hp⟩ := hf.kept hk
      exact ⟨p, slot_put_of_slot hf hi hmoves hnew hp⟩
  within hp := by
    rcases slot_put_eq_some hp with ⟨rfl, rfl⟩ | hp
    · exact ⟨hi, Nat.le_add_right _ _, hf.next_lt hi hnew⟩
    · exact hf.within hp
  front hp hm := by
    rcases slot_put_eq_some hp with ⟨rfl, rfl⟩ | hp
    · exact ⟨List.mem_cons_self, by rw [next_put_self]; omega⟩
    · obtain ⟨hmem, hlt⟩ := hf.front hp hm
      exact ⟨List.mem_cons_of_mem _ hmem, Nat.lt_of_lt_of_le hlt (next_le_next_put _)⟩
  sorted hpq hp hq := by
    rcases slot_put_eq_some hp with ⟨rfl, rfl⟩ | hp' <;>
      rcases slot_put_eq_some hq with ⟨rfl, rfl⟩ | hq'
    · omega
    · -- a filled slot behind the new one lies in a later segment
      have hge := hf.le_segment hq' (Nat.le_of_lt (Nat.lt_of_le_of_lt (Nat.le_add_right _ _) hpq))
      rcases Nat.eq_or_lt_of_le hge with heq | hlt
      · have := hf.not_next_le hi hmoves hq' heq.symm
        omega
      · exact c.before_of_segment_lt hi (hf.within hq').1 hlt
    · have hle := hf.segment_le hp' (Nat.lt_trans hpq (hf.next_lt hi hnew))
      rcases Nat.eq_or_lt_of_le hle with heq | hlt
      · have hm := Good.moves_of_segment_eq hi hmoves (hf.within hp').1 heq
        exact hlast _ (hf.front hp' hm).1 heq
      · exact c.before_of_segment_lt (hf.within hp').1 hi hlt
    · exact hf.sorted hpq hp' hq'

/-! ## Sweeping over the slots

Meeting a position places the one ahead of it.  Its slot lies further on, so it is met in its turn,
and positions are placed in the order in which their successors are met. -/

/-- **A task that a sweep solves** — within a segment the order is that of the next positions, the
last position comes first, and a placed position never lies in an earlier segment than the next
one. -/
structure Chained (c : Course) : Prop where
  before_of_next : ∀ {i j : Nat}, i + 1 < c.size → j + 1 < c.size → c.moves i = true →
    c.segment i = c.segment j → c.before (i + 1) (j + 1) → c.before i j
  before_of_last : ∀ {i j : Nat}, i + 1 = c.size → c.moves i = true → j < c.size → j ≠ i →
    c.segment j = c.segment i → c.before i j
  segment_next_le : ∀ {i : Nat}, i + 1 < c.size → c.moves i = true →
    c.segment (i + 1) ≤ c.segment i

variable (c) in
/-- **Meet one slot** — if it holds a position, the one ahead is placed if it is to be. -/
def visit (f : Filling) (p : Nat) : Filling :=
  match f.slot p with
  | some (i + 1) => if c.moves i then c.put f i else f
  | _ => f

variable (c) in
/-- **What is known after the slots before `t`** — the placed positions are the last one and those
ahead of a position in a slot that was met. -/
structure Swept (t : Nat) (f : Filling) : Prop extends c.Good f where
  origin : ∀ {i : Nat}, i ∈ f.placed → i + 1 = c.size ∨ ∃ p < t, f.slot p = some (i + 1)
  met : ∀ {p i : Nat}, p < t → f.slot p = some (i + 1) → c.moves i = true → i ∈ f.placed
  last : ∀ {i : Nat}, i + 1 = c.size → c.moves i = true → i ∈ f.placed

namespace Swept

variable {t : Nat}

/-- A position that is met for the first time was not placed before. -/
theorem not_mem_placed (hf : c.Swept t f) (ht : f.slot t = some (i + 1)) : i ∉ f.placed := by
  intro hmem
  rcases hf.origin hmem with heq | ⟨p, hp, hslot⟩
  · have := (hf.within ht).1
    omega
  · exact c.irrefl _ (hf.sorted hp hslot ht)

/-- **Slots are filled ahead of the sweep.** -/
theorem lt_next (hc : c.Chained) (hf : c.Swept t f) (ht : f.slot t = some (i + 1))
    (hmoves : c.moves i = true) : t < c.next f (c.segment i) := by
  obtain ⟨hi, hstart, hend⟩ := hf.within ht
  rcases Nat.eq_or_lt_of_le (hc.segment_next_le hi hmoves) with heq | hlt
  · exact hf.not_next_le (Nat.lt_of_succ_lt hi) hmoves ht heq
  · have := c.start_mono (show c.segment (i + 1) + 1 ≤ c.segment i by omega)
    have : c.start (c.segment i) ≤ c.next f (c.segment i) := Nat.le_add_right _ _
    omega

/-- **Positions are placed in the order in which their successors are met.** -/
theorem before_of_met (hc : c.Chained) (hf : c.Swept t f) (ht : f.slot t = some (i + 1))
    (hj : j ∈ f.placed) (hseg : c.segment j = c.segment i) : c.before j i := by
  have hi := (hf.within ht).1
  obtain ⟨hjlt, hjmoves⟩ := hf.moved hj
  rcases hf.origin hj with heq | ⟨p, hp, hslot⟩
  · refine hc.before_of_last heq hjmoves (Nat.lt_of_succ_lt hi) ?_ hseg.symm
    rintro rfl
    omega
  · exact hc.before_of_next (hf.within hslot).1 hi hjmoves hseg (hf.sorted hp hslot ht)

/-- Meeting a slot whose position has nothing to place ahead of it changes nothing. -/
theorem succ_of_idle (hf : c.Swept t f)
    (hidle : ∀ i, f.slot t = some (i + 1) → c.moves i = false) : c.Swept (t + 1) f where
  toGood := hf.toGood
  origin hi := by
    rcases hf.origin hi with heq | ⟨p, hp, hslot⟩
    · exact Or.inl heq
    · exact Or.inr ⟨p, by omega, hslot⟩
  met := by
    intro p i hp hslot hmoves
    rcases Nat.lt_succ_iff_lt_or_eq.mp hp with hlt | rfl
    · exact hf.met hlt hslot hmoves
    · rw [hidle i hslot] at hmoves
      exact absurd hmoves (by simp)
  last := hf.last

/-- Meeting a slot and placing the position ahead. -/
theorem succ_of_put (hc : c.Chained) (hf : c.Swept t f) (ht : f.slot t = some (i + 1))
    (hmoves : c.moves i = true) : c.Swept (t + 1) (c.put f i) := by
  have hi : i < c.size := Nat.lt_of_succ_lt (hf.within ht).1
  have hnew := hf.not_mem_placed ht
  have hkeep : ∀ {p j : Nat}, f.slot p = some j → (c.put f i).slot p = some j :=
    slot_put_of_slot hf.toGood hi hmoves hnew
  refine ⟨hf.toGood.put hi hmoves hnew fun j hj hseg => hf.before_of_met hc ht hj hseg, ?_, ?_, ?_⟩
  · intro j hj
    rcases List.mem_cons.mp hj with rfl | hj
    · exact Or.inr ⟨t, Nat.lt_succ_self t, hkeep ht⟩
    · rcases hf.origin hj with heq | ⟨p, hp, hslot⟩
      · exact Or.inl heq
      · exact Or.inr ⟨p, by omega, hkeep hslot⟩
  · intro p j hp hslot hm
    rcases slot_put_eq_some hslot with ⟨rfl, -⟩ | hslot
    · have := hf.lt_next hc ht hmoves
      omega
    · rcases Nat.lt_succ_iff_lt_or_eq.mp hp with hlt | rfl
      · exact List.mem_cons_of_mem _ (hf.met hlt hslot hm)
      · obtain rfl : i = j := by simpa [ht] using hslot
        exact List.mem_cons_self
  · intro j heq hm
    exact List.mem_cons_of_mem _ (hf.last heq hm)

/-- **One step of a sweep.** -/
theorem visit (hc : c.Chained) (hf : c.Swept t f) : c.Swept (t + 1) (c.visit f t) := by
  rw [Course.visit]
  split
  · next i ht =>
    split
    · next hmoves => exact hf.succ_of_put hc ht hmoves
    · next hmoves =>
      refine hf.succ_of_idle fun j hj => ?_
      obtain rfl : i = j := by simpa [ht] using hj
      simpa using hmoves
  · next hnone => exact hf.succ_of_idle fun i hi => absurd hi (hnone i)

/-- **A whole sweep places everything it has to** — provided that the positions at which chains of
placed positions end stand in slots from the start. -/
theorem mem_placed (hf : c.Swept c.size f)
    (hbase : ∀ i, i + 1 < c.size → c.moves i = true → c.moves (i + 1) = false →
      ∃ p, f.slot p = some (i + 1)) (hi : i < c.size) (hmoves : c.moves i = true) :
    i ∈ f.placed := by
  -- from the last position backwards: the next position stands in a slot, which was met
  induction h : c.size - i generalizing i with
  | zero => omega
  | succ d ih =>
    rcases Nat.eq_or_lt_of_le (Nat.succ_le_of_lt hi) with heq | hlt
    · exact hf.last heq hmoves
    · have hslot : ∃ p, f.slot p = some (i + 1) := by
        cases hnext : c.moves (i + 1) with
        | true => exact hf.kept (ih hlt hnext (by omega))
        | false => exact hbase i hlt hmoves hnext
      obtain ⟨p, hp⟩ := hslot
      have hlt' := Nat.lt_of_lt_of_le (hf.within hp).2.2 (c.start_le_size _)
      exact hf.met hlt' hp hmoves

end Swept

/-! ## A whole sweep -/

theorem slot_visit_of_slot {t : Nat} (hf : c.Swept t f) (hp : f.slot p = some j) :
    (c.visit f t).slot p = some j := by
  rw [visit]
  split
  · next i ht =>
    split
    · next hmoves =>
      exact slot_put_of_slot hf.toGood (Nat.lt_of_succ_lt (hf.within ht).1) hmoves
        (hf.not_mem_placed ht) hp
    · exact hp
  · exact hp

/-- A sweep fills slots with positions that are to be placed only. -/
theorem slot_of_slot_visit {t : Nat} (hj : c.moves j = false)
    (hp : (c.visit f t).slot p = some j) : f.slot p = some j := by
  rw [visit] at hp
  split at hp
  · next i _ =>
    split at hp
    · next hmoves =>
      rcases slot_put_eq_some hp with ⟨-, rfl⟩ | hp
      · rw [hj] at hmoves
        exact absurd hmoves (by simp)
      · exact hp
    · exact hp
  · exact hp

variable (c) in
/-- The sweep over the first `t` slots. -/
def sweep (f : Filling) (t : Nat) : Filling := (List.range t).foldl c.visit f

theorem sweep_succ (t : Nat) : c.sweep f (t + 1) = c.visit (c.sweep f t) t := by
  rw [sweep, sweep, List.range_succ, List.foldl_append, List.foldl_cons, List.foldl_nil]

theorem swept_sweep (hc : c.Chained) (hf : c.Swept 0 f) (t : Nat) : c.Swept t (c.sweep f t) := by
  induction t with
  | zero => exact hf
  | succ t ih =>
    rw [sweep_succ]
    exact ih.visit hc

/-- **A sweep leaves the slots that are filled as they are.** -/
theorem slot_sweep_of_slot (hc : c.Chained) (hf : c.Swept 0 f) (t : Nat)
    (hp : f.slot p = some j) : (c.sweep f t).slot p = some j := by
  induction t with
  | zero => exact hp
  | succ t ih =>
    rw [sweep_succ]
    exact slot_visit_of_slot (swept_sweep hc hf t) ih

theorem slot_of_slot_sweep {t : Nat} (hj : c.moves j = false)
    (hp : (c.sweep f t).slot p = some j) : f.slot p = some j := by
  induction t with
  | zero => exact hp
  | succ t ih =>
    rw [sweep_succ] at hp
    exact ih (slot_of_slot_visit hj hp)

end Course

end CodeClones.Suffix
