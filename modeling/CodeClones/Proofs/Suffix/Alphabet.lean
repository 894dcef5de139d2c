import CodeClones.Proofs.Order.Boundary
import CodeClones.Proofs.Order.Distinct
import CodeClones.Proofs.Suffix.Array

/-!
# Proofs/Suffix/Alphabet — the suffix array of an integer sequence

`compress` recodes the symbols in a strictly monotone way (`exists_compress`), so the sorted order
of the suffixes stays what it was (`sorted_suffixArray`).
-/

namespace CodeClones.Suffix

/-! ## Least and greatest symbols -/

/-- A fold that keeps the better of two entries finds one as good as all. -/
theorem foldl_le_of_mem (le : Int → Int → Prop) {pick : Int → Int → Int}
    (hrefl : ∀ a, le a a) (htrans : ∀ a b c, le a b → le b c → le a c)
    (hleft : ∀ a b, le (pick a b) a) (hright : ∀ a b, le (pick a b) b) {l : List Int}
    {first x : Int} (hx : x = first ∨ x ∈ l) : le (l.foldl pick first) x := by
  induction l generalizing first x with
  | nil =>
    obtain rfl := hx.resolve_right List.not_mem_nil
    exact hrefl x
  | cons a l ih =>
    have hpick : le (l.foldl pick (pick first a)) (pick first a) := ih (Or.inl rfl)
    rcases hx with rfl | hx
    · exact htrans _ _ _ hpick (hleft x a)
    · rcases List.mem_cons.mp hx with rfl | hx
      · exact htrans _ _ _ hpick (hright first x)
      · exact ih (Or.inr hx)

theorem least_le {text : Array Int} {first x : Int} (hx : x ∈ text.toList) :
    text.foldl (fun a b => if b < a then b else a) first ≤ x := by
  rw [← Array.foldl_toList]
  refine foldl_le_of_mem (· ≤ ·) le_refl (fun _ _ _ => le_trans) ?_ ?_ (Or.inr hx)
  · intro a b
    split <;> omega
  · intro a b
    split <;> omega

theorem le_greatest {text : Array Int} {first x : Int} (hx : x ∈ text.toList) :
    x ≤ text.foldl (fun a b => if a < b then b else a) first := by
  rw [← Array.foldl_toList]
  refine foldl_le_of_mem (· ≥ ·) le_refl (fun _ _ _ => ge_trans) ?_ ?_ (Or.inr hx)
  · intro a b
    split <;> omega
  · intro a b
    split <;> omega

/-! ## Ranks -/

section Ranks

variable {alphabet : List Int} (hlt : alphabet.Pairwise (· < ·))

include hlt

theorem getElem_lt_iff {k l : Nat} (hk : k < alphabet.length) (hl : l < alphabet.length) :
    alphabet[k] < alphabet[l] ↔ k < l := by
  rcases Nat.lt_trichotomy k l with h | rfl | h
  · exact iff_of_true (List.pairwise_iff_getElem.mp hlt k l hk hl h) h
  · exact iff_of_false (lt_irrefl _) (lt_irrefl _)
  · have := List.pairwise_iff_getElem.mp hlt l k hl hk h
    exact iff_of_false (by omega) (by omega)

/-- **The rank of a listed symbol is its place.** -/
theorem rankIn_getElem {k : Nat} (hk : k < alphabet.length) :
    rankIn alphabet.toArray alphabet[k] = k := by
  refine Order.boundary_eq (Nat.zero_le k) (by simpa using hk.le) ?_ ?_
  · intro l _ hl
    have hl' : l < alphabet.length := by omega
    simpa [hl'] using (getElem_lt_iff hlt hl' hk).mpr hl
  · intro l hl hlsize
    have hl' : l < alphabet.length := by simpa using hlsize
    simpa [hl'] using (not_congr (getElem_lt_iff hlt hl' hk)).mpr (by omega)

theorem rankIn_lt_iff {a b : Int} (ha : a ∈ alphabet) (hb : b ∈ alphabet) :
    rankIn alphabet.toArray a < rankIn alphabet.toArray b ↔ a < b := by
  obtain ⟨k, hk, rfl⟩ := List.getElem_of_mem ha
  obtain ⟨l, hl, rfl⟩ := List.getElem_of_mem hb
  rw [rankIn_getElem hlt hk, rankIn_getElem hlt hl, getElem_lt_iff hlt hk hl]

theorem rankIn_le {a : Int} (ha : a ∈ alphabet) :
    rankIn alphabet.toArray a ≤ alphabet.length - 1 := by
  obtain ⟨k, hk, rfl⟩ := List.getElem_of_mem ha
  rw [rankIn_getElem hlt hk]
  omega

end Ranks

/-- The distinct symbols in ascending order. -/
theorem pairwise_alphabet (symbols : List Int) :
    (Order.ascending (fun a b => decide (a ≤ b)) symbols).Pairwise (· < ·) := by
  refine (Order.pairwise_ascending ?_ ?_ ?_ symbols).imp fun {a b} h =>
    lt_of_le_of_ne (of_decide_eq_true h.1) h.2
  · intro a b c hab hbc
    exact decide_eq_true ((of_decide_eq_true hab).trans (of_decide_eq_true hbc))
  · intro a b
    rw [Bool.or_eq_true, decide_eq_true_iff, decide_eq_true_iff]
    exact le_total a b
  · intro a b hab hba
    exact le_antisymm (of_decide_eq_true hab) (of_decide_eq_true hba)

/-! ## Recoding -/

/-- **Symbols become small numbers in the same order.** -/
theorem exists_compress (text : Array Int) :
    ∃ f : Int → Nat, (compress text).1 = text.map f
      ∧ (∀ a ∈ text.toList, ∀ b ∈ text.toList, f a < f b ↔ a < b)
      ∧ ∀ a ∈ text.toList, f a ≤ (compress text).2 := by
  rw [compress]
  split
  · next hsmall =>
    have hnonneg : ∀ a ∈ text.toList, 0 ≤ a := fun a ha => hsmall.1.trans (least_le ha)
    refine ⟨Int.toNat, rfl, fun a ha b hb => ?_, fun a ha => Int.toNat_le_toNat (le_greatest ha)⟩
    have := hnonneg a ha
    have := hnonneg b hb
    omega
  · have hlt := pairwise_alphabet text.toList
    exact ⟨_, rfl,
      fun a ha b hb => rankIn_lt_iff hlt (Order.mem_ascending.mpr ha) (Order.mem_ascending.mpr hb),
      fun a ha => rankIn_le hlt (Order.mem_ascending.mpr ha)⟩

/-! ## Sorted suffixes -/

theorem intBefore_iff {text : Array Int} {i j : Nat} :
    intBefore text i j = true ↔ text.toList.drop i < text.toList.drop j :=
  Order.lexLess_eq_true_iff (fun _ _ => decide_eq_true_iff) _ _

/-- **Recoded suffixes have the order of the original ones.** -/
theorem drop_map_lt_iff {β : Type} [LinearOrder β] {text : List Int} {f : Int → β}
    (hf : ∀ a ∈ text, ∀ b ∈ text, f a < f b ↔ a < b) (i j : Nat) :
    (text.map f).drop i < (text.map f).drop j ↔ text.drop i < text.drop j := by
  have hinj : ∀ a ∈ text, ∀ b ∈ text, f a = f b ↔ a = b := by
    intro a ha b hb
    rw [le_antisymm_iff, le_antisymm_iff, ← not_lt, ← not_lt, ← not_lt, ← not_lt, hf a ha b hb,
      hf b hb a ha]
  rw [← List.map_drop, ← List.map_drop]
  exact Order.map_lt_map_iff
    (fun a ha b hb => hf a (List.mem_of_mem_drop ha) b (List.mem_of_mem_drop hb))
    (fun a ha b hb => hinj a (List.mem_of_mem_drop ha) b (List.mem_of_mem_drop hb))

/-- **A sorted order of recoded suffixes** is one of the original ones. -/
theorem Sorted.of_map {β : Type} [LinearOrder β] {text : Array Int} {f : Int → β}
    {order : Array Nat} (hf : ∀ a ∈ text.toList, ∀ b ∈ text.toList, f a < f b ↔ a < b)
    (h : Sorted (fun a b => decide (a < b)) (text.map f) order) :
    Sorted (fun a b => decide (a < b)) text order where
  complete := by simpa using h.complete
  ascending := h.ascending.imp fun {i j} hij => by
    rw [before, Order.lexLess_eq_true_iff (fun _ _ => decide_eq_true_iff), Array.toList_map,
      drop_map_lt_iff hf] at hij
    exact intBefore_iff.mpr hij

/-- **The suffix array lists the suffixes in order.** -/
theorem sorted_suffixArray (text : Array Int) :
    Sorted (fun a b => decide (a < b)) text (suffixArray text) := by
  rw [suffixArray]
  split
  · next hempty =>
    obtain rfl := Array.isEmpty_iff.mp hempty
    exact ⟨List.Perm.refl _, List.Pairwise.nil⟩
  · obtain ⟨f, hsymbols, hf, hbound⟩ := exists_compress text
    have htop : ∀ a ∈ (compress text).1.toList, a ≤ (compress text).2 := by
      rw [hsymbols, Array.toList_map]
      intro a ha
      obtain ⟨x, hx, rfl⟩ := List.mem_map.mp ha
      exact hbound x hx
    obtain ⟨order, horder, hsorted⟩ := exists_sortSuffixes? htop
    change Sorted _ text ((sortSuffixes? (compress text).1 (compress text).2).getD #[])
    rw [horder, Option.getD_some]
    rw [hsymbols] at hsorted
    exact hsorted.of_map hf

theorem suffixArray_eq {text : Array Int} {order : Array Nat}
    (h : Sorted (fun a b => decide (a < b)) text order) : suffixArray text = order :=
  (sorted_suffixArray text).unique h

/-- **What the suffix array is** — a permutation of the positions, in which the suffix at each
place strictly precedes those at all later places. -/
theorem suffixArray_perm_and_ascending (text : Array Int) :
    (suffixArray text).toList.Perm (List.range text.size)
      ∧ (suffixArray text).toList.Pairwise fun i j => text.toList.drop i < text.toList.drop j := by
  obtain ⟨hcomplete, hascending⟩ := sorted_suffixArray text
  exact ⟨hcomplete, hascending.imp intBefore_iff.mp⟩

end CodeClones.Suffix
