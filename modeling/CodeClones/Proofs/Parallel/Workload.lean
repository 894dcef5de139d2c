import CodeClones.Parallel.Workload
import Mathlib

/-!
# Proofs/Parallel/Workload — nothing is lost between the workers
-/

namespace CodeClones.Parallel.Workload

variable {size : Nat} {α : Type}

theorem mem_merge_iff {load : Workload size} {collected : List (Nat × α)} {a : α} :
    a ∈ load.merge collected ↔ ∃ worker < load.workers, (worker, a) ∈ collected := by
  rw [merge, List.mem_flatMap]
  constructor
  · rintro ⟨worker, hworker, ha⟩
    obtain ⟨entry, hentry, rfl⟩ := List.mem_map.mp ha
    obtain ⟨hmem, heq⟩ := List.mem_filter.mp hentry
    exact ⟨worker, List.mem_range.mp hworker, eq_of_beq heq ▸ hmem⟩
  · rintro ⟨worker, hworker, hmem⟩
    exact ⟨worker, List.mem_range.mpr hworker,
      List.mem_map.mpr ⟨(worker, a), List.mem_filter.mpr ⟨hmem, beq_self_eq_true worker⟩, rfl⟩⟩

/-- **What the workers gather is what the items contribute.** -/
theorem mem_gather_iff {load : Workload size} {result : Nat → List α} {a : α} :
    a ∈ load.gather result ↔ ∃ item < size, a ∈ result item := by
  have hitem : ∀ item, item < size ↔ ∃ step ∈ load.steps, step.2 = item := fun item => by
    rw [← List.mem_range, ← load.handled.mem_iff, List.mem_map]
  rw [gather, mem_merge_iff]
  constructor
  · rintro ⟨worker, -, hmem⟩
    obtain ⟨step, hstep, hmem⟩ := List.mem_flatMap.mp hmem
    obtain ⟨b, hb, heq⟩ := List.mem_map.mp hmem
    obtain ⟨-, rfl⟩ := Prod.mk.inj heq
    exact ⟨step.2, (hitem step.2).mpr ⟨step, hstep, rfl⟩, hb⟩
  · rintro ⟨item, hlt, ha⟩
    obtain ⟨step, hstep, rfl⟩ := (hitem item).mp hlt
    exact ⟨step.1, load.employed step hstep,
      List.mem_flatMap.mpr ⟨step, hstep, List.mem_map.mpr ⟨a, ha, rfl⟩⟩⟩

/-- A slot holds the result for its item once the item is handled. -/
theorem getElem?_foldl_setIfInBounds_result (result : Nat → α) (items : List Nat)
    (slots : Array α) (item : Nat) :
    (items.foldl (fun slots item => slots.setIfInBounds item (result item)) slots)[item]?
      = if item ∈ items ∧ item < slots.size then some (result item) else slots[item]? := by
  induction items generalizing slots with
  | nil => simp
  | cons other items ih =>
    rw [List.foldl_cons, ih, Array.size_setIfInBounds, Array.getElem?_setIfInBounds]
    by_cases hlt : item < slots.size
    · rcases eq_or_ne item other with rfl | hne
      · simp [hlt]
      · simp [hlt, hne, hne.symm]
    · simp only [hlt, and_false, if_false, Array.getElem?_eq_none (Nat.not_lt.mp hlt)]
      split
      · next heq => exact if_neg (heq ▸ hlt)
      · rfl

/-- **Filled slots hold the result for each item**, whoever handled it and when. -/
theorem fill_eq (load : Workload size) (blank : α) (result : Nat → α) :
    load.fill blank result = (List.range size).map result := by
  refine List.ext_getElem? fun item => ?_
  have hmem : item ∈ load.order ↔ item < size := load.handled.mem_iff.trans List.mem_range
  rw [fill, Array.getElem?_toList, getElem?_foldl_setIfInBounds_result, List.getElem?_map]
  by_cases hlt : item < size <;> simp [hmem, hlt]

/-- Reading the entries of a list one after the other. -/
theorem filterMap_getElem?_range (entries : List α) :
    (List.range entries.length).filterMap (fun item => entries[item]?) = entries := by
  induction entries using List.reverseRecOn with
  | nil => rfl
  | append_singleton entries a ih =>
    have hprefix : ∀ item ∈ List.range entries.length,
        (entries ++ [a])[item]? = entries[item]? := fun item hitem =>
      List.getElem?_append_left (List.mem_range.mp hitem)
    rw [List.length_append, List.length_singleton, List.range_succ, List.filterMap_append,
      List.filterMap_congr hprefix, ih]
    simp

/-- What is made of each position is what is made of the entry there. -/
theorem map_range_eq {β : Type} (entries : List α) (f : α → β) {g : Nat → β}
    (hg : ∀ item a, entries[item]? = some a → g item = f a) :
    (List.range entries.length).map g = entries.map f := by
  refine List.ext_getElem? fun item => ?_
  rw [List.getElem?_map, List.getElem?_map]
  rcases Nat.lt_or_ge item entries.length with hlt | hge
  · rw [List.getElem?_range hlt, List.getElem?_eq_getElem hlt, Option.map_some, Option.map_some,
      hg item _ (List.getElem?_eq_getElem hlt)]
  · rw [List.getElem?_eq_none (by rwa [List.length_range]), List.getElem?_eq_none hge]
    rfl

/-- **Every entry has its turn once**, whatever the order of the items. -/
theorem perm_filterMap_order (load : Workload size) (entries : Array α)
    (hsize : entries.size = size) :
    (load.order.filterMap fun item => entries[item]?).Perm entries.toList := by
  subst hsize
  refine (load.handled.filterMap _).trans (List.Perm.of_eq ?_)
  simpa using filterMap_getElem?_range entries.toList

/-- Entries grouped by their workers. -/
theorem perm_flatMap_filter (workers : Nat) (collected : List (Nat × α))
    (h : ∀ entry ∈ collected, entry.1 < workers) :
    ((List.range workers).flatMap fun worker =>
      collected.filter fun entry => entry.1 == worker).Perm collected := by
  induction workers generalizing collected with
  | zero =>
    rw [List.eq_nil_iff_forall_not_mem.mpr fun entry hentry =>
      absurd (h entry hentry) (Nat.not_lt_zero _)]
    exact List.Perm.refl _
  | succ workers ih =>
    -- the last worker's entries go to the end; the others are grouped by induction
    have hothers := ih (collected.filter fun entry => !(entry.1 == workers))
      fun entry hentry => by
        obtain ⟨hmem, hne⟩ := List.mem_filter.mp hentry
        exact Nat.lt_of_le_of_ne (Nat.le_of_lt_succ (h entry hmem)) (by simpa using hne)
    have hsame : ∀ worker ∈ List.range workers,
        (collected.filter fun entry => !(entry.1 == workers)).filter
            (fun entry => entry.1 == worker)
          = collected.filter fun entry => entry.1 == worker := fun worker hworker => by
      rw [List.filter_filter]
      refine List.filter_congr fun entry _ => ?_
      have := List.mem_range.mp hworker
      grind
    rw [List.flatMap_congr hsame] at hothers
    rw [List.range_succ, List.flatMap_append, List.flatMap_singleton]
    exact (hothers.append_right _).trans
      (List.perm_append_comm.trans (List.filter_append_perm _ collected))

/-- **Joining loses nothing and repeats nothing.** -/
theorem perm_merge (load : Workload size) {collected : List (Nat × α)}
    (h : ∀ entry ∈ collected, entry.1 < load.workers) :
    (load.merge collected).Perm (collected.map Prod.snd) := by
  rw [merge, ← List.map_flatMap]
  exact (perm_flatMap_filter _ _ h).map Prod.snd

end CodeClones.Parallel.Workload
