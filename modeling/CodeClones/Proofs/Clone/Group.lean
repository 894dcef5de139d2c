import CodeClones.Clone.Group
import Mathlib

/-!
# Proofs/Clone/Group — one group for each key

The groups kept are the first ones of their keys, in the order of the list
(`distinctGroups_eq_firstOfEach`).
-/

namespace CodeClones

variable {S : Type}

theorem distinctGroupsFrom_sublist (seen : Std.HashSet String) (groups : List (CloneGroup S)) :
    (distinctGroupsFrom seen groups).Sublist groups := by
  induction groups generalizing seen with
  | nil => exact List.Sublist.refl _
  | cons group groups ih =>
    rw [distinctGroupsFrom]
    split
    · exact (ih seen).cons group
    · exact (ih _).cons_cons group

theorem distinctGroups_sublist (groups : List (CloneGroup S)) :
    (distinctGroups groups).Sublist groups :=
  distinctGroupsFrom_sublist ∅ groups

/-- **Keys among the groups kept** — none was seen before, none occurs twice, and none is lost. -/
theorem distinctGroupsFrom_spec (seen : Std.HashSet String) (groups : List (CloneGroup S)) :
    (∀ group ∈ distinctGroupsFrom seen groups, group.key ∉ seen)
      ∧ (distinctGroupsFrom seen groups).Pairwise (fun a b => a.key ≠ b.key)
      ∧ ∀ group ∈ groups, group.key ∈ seen
        ∨ ∃ kept ∈ distinctGroupsFrom seen groups, kept.key = group.key := by
  induction groups generalizing seen with
  | nil =>
    rw [distinctGroupsFrom]
    exact ⟨fun _ h => absurd h List.not_mem_nil, List.Pairwise.nil,
      fun _ h => absurd h List.not_mem_nil⟩
  | cons group groups ih =>
    rw [distinctGroupsFrom]
    by_cases hseen : group.key ∈ seen
    · obtain ⟨hnew, hpairs, hkept⟩ := ih seen
      rw [if_pos (Std.HashSet.contains_iff_mem.mpr hseen)]
      refine ⟨hnew, hpairs, fun other hother => ?_⟩
      rcases List.mem_cons.mp hother with rfl | hother
      · exact Or.inl hseen
      · exact hkept other hother
    · obtain ⟨hnew, hpairs, hkept⟩ := ih (seen.insert group.key)
      rw [if_neg fun h => hseen (Std.HashSet.contains_iff_mem.mp h)]
      have hfresh : ∀ other ∈ distinctGroupsFrom (seen.insert group.key) groups,
          group.key ≠ other.key ∧ other.key ∉ seen := fun other hother => by
        have h := hnew other hother
        rw [Std.HashSet.mem_insert, not_or] at h
        exact ⟨fun heq => h.1 (beq_iff_eq.mpr heq), h.2⟩
      refine ⟨fun other hother => ?_,
        List.pairwise_cons.mpr ⟨fun other hother => (hfresh other hother).1, hpairs⟩,
        fun other hother => ?_⟩
      · rcases List.mem_cons.mp hother with rfl | hother
        · exact hseen
        · exact (hfresh other hother).2
      · rcases List.mem_cons.mp hother with rfl | hother
        · exact Or.inr ⟨other, List.mem_cons_self, rfl⟩
        · rcases hkept other hother with h | ⟨kept, hmem, heq⟩
          · rcases Std.HashSet.mem_insert.mp h with h | h
            · exact Or.inr ⟨group, List.mem_cons_self, eq_of_beq h⟩
            · exact Or.inl h
          · exact Or.inr ⟨kept, List.mem_cons_of_mem group hmem, heq⟩

theorem pairwise_key_distinctGroups (groups : List (CloneGroup S)) :
    (distinctGroups groups).Pairwise fun a b => a.key ≠ b.key :=
  (distinctGroupsFrom_spec ∅ groups).2.1

/-- **No key is lost.** -/
theorem exists_key_distinctGroups {groups : List (CloneGroup S)} {group : CloneGroup S}
    (h : group ∈ groups) : ∃ kept ∈ distinctGroups groups, kept.key = group.key :=
  ((distinctGroupsFrom_spec ∅ groups).2.2 group h).resolve_left Std.HashSet.not_mem_empty

/-! ## First entries -/

section First

variable {α β γ : Type} [DecidableEq β] [DecidableEq γ]

/-- **The first entry of each value** — those whose value no earlier entry has, in their order. -/
def firstOfEach (value : α → β) (entries : List α) : List α :=
  (entries.zipIdx.filter fun entry =>
    (entries.take entry.2).all fun earlier => decide (value earlier ≠ value entry.1)).map Prod.fst

/-- Values that tell the same entries apart have the same first entries. -/
theorem firstOfEach_congr {value : α → β} {value' : α → γ} {entries : List α}
    (h : ∀ a ∈ entries, ∀ b ∈ entries, value a = value b ↔ value' a = value' b) :
    firstOfEach value entries = firstOfEach value' entries := by
  refine congrArg (List.map Prod.fst) (List.filter_congr fun entry hentry => ?_)
  have hmem := List.fst_mem_of_mem_zipIdx hentry
  rw [Bool.eq_iff_iff, List.all_eq_true, List.all_eq_true]
  refine forall₂_congr fun earlier hearlier => ?_
  rw [decide_eq_true_iff, decide_eq_true_iff, Ne, Ne,
    h earlier (List.mem_of_mem_take hearlier) entry.1 hmem]

end First

/-- What is kept after some groups whose keys are those seen. -/
theorem distinctGroupsFrom_eq {before : List (CloneGroup S)} {seen : Std.HashSet String}
    (hseen : ∀ key, key ∈ seen ↔ ∃ group ∈ before, group.key = key)
    (groups : List (CloneGroup S)) :
    distinctGroupsFrom seen groups = ((groups.zipIdx before.length).filter fun entry =>
      ((before ++ groups).take entry.2).all fun earlier =>
        decide (earlier.key ≠ entry.1.key)).map Prod.fst := by
  induction groups generalizing before seen with
  | nil => rfl
  | cons group groups ih =>
    have hnew : (before.all fun earlier => decide (earlier.key ≠ group.key)) = true
        ↔ group.key ∉ seen := by
      rw [List.all_eq_true, hseen, not_exists]
      simp
    -- kept or not, the group is one of those before the rest
    have hrest : ∀ {seen' : Std.HashSet String},
        (∀ key, key ∈ seen' ↔ key ∈ seen ∨ group.key = key) →
        distinctGroupsFrom seen' groups = ((groups.zipIdx (before.length + 1)).filter fun entry =>
          ((before ++ group :: groups).take entry.2).all fun earlier =>
            decide (earlier.key ≠ entry.1.key)).map Prod.fst := by
      intro seen' hseen'
      have hconcat : ∀ key, key ∈ seen' ↔ ∃ other ∈ before ++ [group], other.key = key :=
        fun key => by
          rw [hseen', hseen]
          simp [or_and_right, exists_or]
      have htail := ih hconcat
      rwa [List.length_append, List.length_singleton, List.append_assoc] at htail
    rw [distinctGroupsFrom, List.zipIdx_cons, List.filter_cons, List.take_left]
    by_cases hmem : group.key ∈ seen
    · rw [if_pos (Std.HashSet.contains_iff_mem.mpr hmem), if_neg fun h => hnew.mp h hmem]
      exact hrest fun key => (or_iff_left_of_imp fun heq => heq ▸ hmem).symm
    · rw [if_neg fun h => hmem (Std.HashSet.contains_iff_mem.mp h), if_pos (hnew.mpr hmem),
        List.map_cons]
      refine congrArg (group :: ·) (hrest fun key => ?_)
      rw [Std.HashSet.mem_insert, beq_iff_eq, or_comm]

/-- **The groups kept are the first ones of their keys.** -/
theorem distinctGroups_eq_firstOfEach (groups : List (CloneGroup S)) :
    distinctGroups groups = firstOfEach CloneGroup.key groups :=
  have hnone : ∀ key, key ∈ (∅ : Std.HashSet String)
      ↔ ∃ group ∈ ([] : List (CloneGroup S)), group.key = key := by simp
  distinctGroupsFrom_eq hnone groups

end CodeClones
