import CodeClones.Order.Distinct
import Mathlib

/-!
# Proofs/Order/Distinct — the ascending list of a set

`ascending` lists what a list contains, each entry once and in order; so it depends only on which
entries there are (`ascending_congr`).
-/

namespace CodeClones.Order

variable {α : Type} [BEq α]

/-! ## Dropping repetitions -/

theorem eraseReps_loop (a : α) (l acc : List α) :
    List.eraseRepsBy.loop (· == ·) a l acc
      = acc.reverse ++ List.eraseRepsBy.loop (· == ·) a l [] := by
  induction l generalizing a acc with
  | nil => simp [List.eraseRepsBy.loop]
  | cons b l ih =>
    rw [List.eraseRepsBy.loop, List.eraseRepsBy.loop]
    split
    · exact ih a acc
    · rw [ih b (a :: acc), ih b [a], List.reverse_cons, List.append_assoc, List.reverse_singleton]

theorem eraseReps_cons_cons (a b : α) (l : List α) :
    (a :: b :: l).eraseReps = if a == b then (a :: l).eraseReps else a :: (b :: l).eraseReps := by
  change List.eraseRepsBy.loop (· == ·) a (b :: l) [] = _
  rw [List.eraseRepsBy.loop]
  split
  · next heq => rw [if_pos heq]; rfl
  · next hne =>
    rw [hne, if_neg Bool.false_ne_true, eraseReps_loop]
    rfl

variable [LawfulBEq α]

theorem mem_eraseReps {l : List α} {x : α} : x ∈ l.eraseReps ↔ x ∈ l := by
  match l with
  | [] => rfl
  | [a] => rfl
  | a :: b :: l =>
    rw [eraseReps_cons_cons]
    split
    · next heq =>
      rw [mem_eraseReps, eq_of_beq heq]
      simp
    · rw [List.mem_cons, mem_eraseReps, List.mem_cons (a := x) (b := a)]
termination_by l.length

/-- **In a sorted list equal entries are neighbours**, so none is left twice. -/
theorem pairwise_eraseReps {le : α → α → Bool} (hanti : ∀ a b, le a b → le b a → a = b)
    {l : List α} (hl : l.Pairwise fun a b => le a b = true) :
    l.eraseReps.Pairwise fun a b => le a b = true ∧ a ≠ b := by
  match l with
  | [] => exact List.Pairwise.nil
  | [a] => exact List.pairwise_singleton _ _
  | a :: b :: l =>
    obtain ⟨ha, htail⟩ := List.pairwise_cons.mp hl
    rw [eraseReps_cons_cons]
    split
    · next heq =>
      obtain rfl := eq_of_beq heq
      exact pairwise_eraseReps hanti htail
    · next hne =>
      refine List.pairwise_cons.mpr ⟨fun x hx => ?_, pairwise_eraseReps hanti htail⟩
      have hx := mem_eraseReps.mp hx
      refine ⟨ha x hx, ?_⟩
      rintro rfl
      rcases List.mem_cons.mp hx with rfl | hx
      · exact hne (beq_self_eq_true a)
      · have hba := (List.pairwise_cons.mp htail).1 a hx
        exact hne (beq_iff_eq.mpr (hanti a b (ha b List.mem_cons_self) hba))
termination_by l.length

/-! ## Ascending lists -/

section Ascending

variable {le : α → α → Bool}

theorem mem_ascending {entries : List α} {x : α} : x ∈ ascending le entries ↔ x ∈ entries := by
  rw [ascending, mem_eraseReps, List.mem_mergeSort]

variable (htrans : ∀ a b c, le a b → le b c → le a c) (htotal : ∀ a b, le a b || le b a)
  (hanti : ∀ a b, le a b → le b a → a = b)

include htrans htotal hanti

theorem pairwise_ascending (entries : List α) :
    (ascending le entries).Pairwise fun a b => le a b = true ∧ a ≠ b :=
  pairwise_eraseReps hanti (List.pairwise_mergeSort htrans htotal entries)

/-- **The ascending list depends only on what is listed.** -/
theorem ascending_congr {as bs : List α} (h : ∀ x, x ∈ as ↔ x ∈ bs) :
    ascending le as = ascending le bs := by
  have has := pairwise_ascending htrans htotal hanti as
  have hbs := pairwise_ascending htrans htotal hanti bs
  have hperm : (ascending le as).Perm (ascending le bs) := by
    refine (List.perm_ext_iff_of_nodup (has.imp And.right) (hbs.imp And.right)).mpr fun x => ?_
    rw [mem_ascending, mem_ascending, h]
  exact hperm.eq_of_pairwise (fun a b _ _ hab hba => hanti a b hab.1 hba.1) has hbs

end Ascending

/-- **Ascending words are strictly ascending.** -/
theorem pairwise_ascendingWords (words : List UInt64) :
    (ascendingWords words).Pairwise (· < ·) := by
  have hsorted : (ascendingWords words).Pairwise fun a b => decide (a ≤ b) = true ∧ a ≠ b := by
    refine pairwise_ascending (fun a b c hab hbc => ?_) (fun a b => ?_) (fun a b hab hba => ?_)
      words
    · exact decide_eq_true (UInt64.le_trans (of_decide_eq_true hab) (of_decide_eq_true hbc))
    · rw [Bool.or_eq_true, decide_eq_true_iff, decide_eq_true_iff]
      exact UInt64.le_total a b
    · exact UInt64.le_antisymm (of_decide_eq_true hab) (of_decide_eq_true hba)
  exact hsorted.imp fun hab => UInt64.lt_of_le_of_ne (of_decide_eq_true hab.1) hab.2

end CodeClones.Order
