import Mathlib

/-!
# Proofs/Order/Sorting — sorting by a key

A comparison that decides the order of keys sorts a list by them (`pairwise_mergeSort_key`).  The
sort is stable: entries of one key keep their order (`filter_mergeSort_key`), and with it whatever
holds along the list (`pairwise_mergeSort_stable`).
-/

namespace CodeClones.Order

variable {α β : Type} [LinearOrder β] (key : α → β) {le : α → α → Bool}
  (hle : ∀ a b, le a b = true ↔ key a ≤ key b)

include hle

theorem trans_of_key (a b c : α) (hab : le a b = true) (hbc : le b c = true) : le a c = true :=
  (hle a c).mpr (((hle a b).mp hab).trans ((hle b c).mp hbc))

theorem total_of_key (a b : α) : (le a b || le b a) = true := by
  rw [Bool.or_eq_true, hle, hle]
  exact le_total _ _

/-- **Sorted by a key**, a list ascends by it. -/
theorem pairwise_mergeSort_key (entries : List α) :
    (entries.mergeSort le).Pairwise fun a b => key a ≤ key b :=
  (List.pairwise_mergeSort (trans_of_key key hle) (total_of_key key hle) entries).imp
    fun {a b} => (hle a b).mp

/-- **The sort is stable** — entries of one key keep their order. -/
theorem filter_mergeSort_key (entries : List α) (k : β) :
    (entries.mergeSort le).filter (fun a => decide (key a = k))
      = entries.filter fun a => decide (key a = k) := by
  have hequal : (entries.filter fun a => decide (key a = k)).Pairwise fun a b => le a b = true :=
    List.pairwise_filter.mpr (List.pairwise_of_forall fun a b ha hb => by
      rw [decide_eq_true_iff] at ha hb
      exact (hle a b).mpr (ha.trans hb.symm).le)
  have hsub := (List.sublist_mergeSort (trans_of_key key hle) (total_of_key key hle) hequal
    List.filter_sublist).filter fun a => decide (key a = k)
  simp only [List.filter_filter, Bool.and_self] at hsub
  exact (hsub.eq_of_length ((List.mergeSort_perm entries _).filter _).length_eq.symm).symm

/-- **Among entries of one key the sort keeps what holds along the list.** -/
theorem pairwise_mergeSort_stable {entries : List α} {rel : α → α → Prop}
    (h : entries.Pairwise fun a b => key a = key b → rel a b) :
    (entries.mergeSort le).Pairwise fun a b => key a < key b ∨ key a = key b ∧ rel a b := by
  rw [List.pairwise_iff_forall_sublist]
  intro a b hsub
  have hab := List.pairwise_iff_forall_sublist.mp (pairwise_mergeSort_key key hle entries) hsub
  rcases lt_or_eq_of_le hab with hlt | heq
  · exact Or.inl hlt
  · refine Or.inr ⟨heq, ?_⟩
    have hsame := hsub.filter fun x => decide (key x = key a)
    have hpair : [a, b].filter (fun x => decide (key x = key a)) = [a, b] :=
      List.filter_eq_self.mpr fun x hx => by
        rcases List.mem_pair.mp hx with rfl | rfl
        · exact decide_eq_true rfl
        · exact decide_eq_true heq.symm
    rw [filter_mergeSort_key key hle, hpair] at hsame
    exact List.pairwise_iff_forall_sublist.mp h (hsame.trans List.filter_sublist) heq

end CodeClones.Order
