import Mathlib

/-!
# Proofs/Order/Table — where the entries of a list stand

Writing every entry's place into a table, one entry after the other, gives a table that finds the
place of each entry, as long as no entry is repeated.
-/

namespace CodeClones.Order

variable {α : Type}

/-- Numbered entries have ascending numbers. -/
theorem pairwise_snd_zipIdx (entries : List α) :
    entries.zipIdx.Pairwise fun a b => a.2 < b.2 := by
  rw [← List.pairwise_map, List.zipIdx_map_snd]
  exact List.pairwise_lt_range'

/-- What is not an entry keeps its place in the table. -/
theorem getElem?_foldl_setIfInBounds_of_notMem (g : Nat → α) {positions : List Nat} (start : Nat)
    {table : Array α} {p : Nat} (hp : p ∉ positions) :
    ((positions.zipIdx start).foldl (fun table entry => table.setIfInBounds entry.1 (g entry.2))
      table)[p]? = table[p]? := by
  induction positions generalizing start table with
  | nil => rfl
  | cons q positions ih =>
    rw [List.mem_cons, not_or] at hp
    rw [List.zipIdx_cons, List.foldl_cons, ih (start + 1) hp.2,
      Array.getElem?_setIfInBounds_ne (Ne.symm hp.1)]

/-- **The table finds the place of every entry.** -/
theorem getElem?_foldl_setIfInBounds (g : Nat → α) {positions : List Nat} (start : Nat)
    (table : Array α) (hnodup : positions.Nodup) (hlt : ∀ p ∈ positions, p < table.size) {k : Nat}
    (hk : k < positions.length) :
    ((positions.zipIdx start).foldl (fun table entry => table.setIfInBounds entry.1 (g entry.2))
      table)[positions[k]]? = some (g (start + k)) := by
  induction positions generalizing start table k with
  | nil => simp at hk
  | cons q positions ih =>
    obtain ⟨hq, hnodup⟩ := List.nodup_cons.mp hnodup
    rw [List.zipIdx_cons, List.foldl_cons]
    cases k with
    | zero =>
      rw [List.getElem_cons_zero, getElem?_foldl_setIfInBounds_of_notMem g (start + 1) hq,
        Array.getElem?_setIfInBounds_self_of_lt (hlt q List.mem_cons_self)]
      rfl
    | succ k =>
      rw [List.getElem_cons_succ, ih (start + 1) _ hnodup (fun p hp => by
        rw [Array.size_setIfInBounds]
        exact hlt p (List.mem_cons_of_mem _ hp)) (Nat.lt_of_succ_lt_succ hk)]
      congr 2
      omega

end CodeClones.Order
