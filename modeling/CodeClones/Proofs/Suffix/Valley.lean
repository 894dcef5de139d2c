import CodeClones.Proofs.Suffix.Courses
import CodeClones.Suffix.Reduction

/-!
# Proofs/Suffix/Valley — where stretches begin and end

The valleys of a text are the rising positions after a falling one.  The stretch of a valley runs to
the next valley, which it includes, or to the end of the text; what it leaves is the suffix there
(`IsStretch`).
-/

namespace CodeClones.Suffix

variable {symbols : Array Nat} {top i j : Nat}

/-- A rising position is followed by a larger symbol. -/
theorem exists_lt_of_rises {a : Nat} {rest : List Nat} (h : Rises (a :: rest)) :
    ∃ b ∈ rest, a < b := by
  induction rest generalizing a with
  | nil => exact absurd h (not_rises_singleton a)
  | cons b rest ih =>
    rcases rises_cons_cons.mp h with hlt | ⟨rfl, hb⟩
    · exact ⟨b, List.mem_cons_self, hlt⟩
    · obtain ⟨d, hd, hlt⟩ := ih hb
      exact ⟨d, List.mem_cons_of_mem _ hd, hlt⟩

/-! ## The types and symbols of a layout -/

theorem getElem?_rises (hi : i < symbols.size) :
    (Layout.ofSymbols symbols top).rises[i]?
      = some (decide (Rises (symbols.toList.drop i))) := by
  rw [Layout.ofSymbols, List.getElem?_toArray]
  exact getElem?_rising (by simpa using hi)

theorem size_rises : (Layout.ofSymbols symbols top).rises.size = symbols.size := by
  rw [Layout.ofSymbols, List.size_toArray, length_rising, Array.length_toList]

theorem getElem?_symbols {a : Nat} {rest : List Nat} (h : symbols.toList.drop i = a :: rest) :
    (Layout.ofSymbols symbols top).symbols[i]? = some a := by
  have hhead : (symbols.toList.drop i)[0]? = some a := by rw [h, List.getElem?_cons_zero]
  rwa [List.getElem?_drop, Nat.add_zero, Array.getElem?_toList] at hhead

/-- **The last position falls.** -/
theorem not_rises_last (hpos : 0 < symbols.size) :
    ¬ Rises (symbols.toList.drop (symbols.size - 1)) := by
  obtain ⟨a, ha⟩ := drop_eq_cons
    (show symbols.size - 1 < symbols.toList.length by rw [Array.length_toList]; omega)
  rw [ha, List.drop_eq_nil_of_le (by rw [Array.length_toList]; omega)]
  exact not_rises_singleton a

/-! ## Valleys -/

/-- **The valleys are the rising positions after a falling one.** -/
theorem isValley_succ_iff (hi : i + 1 < symbols.size) :
    isValley (Layout.ofSymbols symbols top).rises (i + 1) = true
      ↔ ¬ Rises (symbols.toList.drop i) ∧ Rises (symbols.toList.drop (i + 1)) := by
  rw [isValley, Nat.add_sub_cancel, getElem?_rises (Nat.lt_of_succ_lt hi), getElem?_rises hi]
  simp

theorem mem_valleys_iff :
    i ∈ valleys (Layout.ofSymbols symbols top).rises
      ↔ i < symbols.size ∧ isValley (Layout.ofSymbols symbols top).rises i = true := by
  rw [valleys, List.mem_filter, List.mem_range, size_rises]

theorem not_isValley_zero : isValley (Layout.ofSymbols symbols top).rises 0 = false := by
  simp [isValley]

/-- A valley has a position before it. -/
theorem exists_of_mem_valleys (h : i ∈ valleys (Layout.ofSymbols symbols top).rises) :
    ∃ j, i = j + 1 ∧ j + 1 < symbols.size ∧ ¬ Rises (symbols.toList.drop j)
      ∧ Rises (symbols.toList.drop (j + 1)) := by
  obtain ⟨hlt, hvalley⟩ := mem_valleys_iff.mp h
  cases i with
  | zero => rw [not_isValley_zero] at hvalley; exact absurd hvalley (by simp)
  | succ j => exact ⟨j, rfl, hlt, (isValley_succ_iff hlt).mp hvalley⟩

theorem rises_of_mem_valleys (h : i ∈ valleys (Layout.ofSymbols symbols top).rises) :
    Rises (symbols.toList.drop i) := by
  obtain ⟨j, rfl, -, -, hrises⟩ := exists_of_mem_valleys h
  exact hrises

theorem succ_mem_valleys (hi : i + 1 < symbols.size) (hfalls : ¬ Rises (symbols.toList.drop i))
    (hrises : Rises (symbols.toList.drop (i + 1))) :
    i + 1 ∈ valleys (Layout.ofSymbols symbols top).rises :=
  mem_valleys_iff.mpr ⟨hi, (isValley_succ_iff hi).mpr ⟨hfalls, hrises⟩⟩

theorem sorted_valleys (rises : Array Bool) : (valleys rises).Pairwise (· < ·) :=
  List.pairwise_lt_range.filter _

theorem nodup_valleys (rises : Array Bool) : (valleys rises).Nodup :=
  List.nodup_range.filter _

/-! ## The extent of a stretch -/

/-- A descent falls until the first rising position. -/
theorem descent_drop {text : List Nat} (hi : i ≤ text.length) :
    ∃ j, i ≤ j ∧ j ≤ text.length ∧ afterDescent (text.drop i) = text.drop j
      ∧ descent untagged (text.drop i) = (trail (text.drop i)).take (j + 1 - i)
      ∧ (∀ k, i ≤ k → k < j → ¬ Rises (text.drop k))
      ∧ (j < text.length → Rises (text.drop j)) := by
  induction h : text.length - i generalizing i with
  | zero =>
    have hnil : text.drop i = [] := List.drop_eq_nil_of_le (by omega)
    exact ⟨i, Nat.le_refl i, hi, by rw [hnil, afterDescent],
      by rw [hnil, trail, List.take_nil, descent], by omega, by omega⟩
  | succ d ih =>
    obtain ⟨a, ha⟩ := drop_eq_cons (show i < text.length by omega)
    by_cases hrises : Rises (text.drop i)
    · refine ⟨i, Nat.le_refl i, hi, ?_, ?_, by omega, fun _ => hrises⟩
      · rw [ha] at hrises ⊢
        rw [afterDescent, if_pos hrises]
      · rw [ha] at hrises ⊢
        rw [descent_of_rises hrises, trail, show i + 1 - i = 0 + 1 by omega]
        rfl
    · obtain ⟨j, hij, hj, hafter, htake, hfalls, hend⟩ := ih (i := i + 1) (by omega) (by omega)
      refine ⟨j, by omega, hj, ?_, ?_, fun k hik hkj => ?_, hend⟩
      · rw [ha] at hrises ⊢
        rw [afterDescent, if_neg hrises, hafter]
      · rw [ha] at hrises ⊢
        rw [descent_of_not_rises hrises, trail, htake,
          show j + 1 - i = j + 1 - (i + 1) + 1 by omega, List.take_succ_cons]
      · rcases Nat.eq_or_lt_of_le hik with rfl | hlt
        · exact hrises
        · exact hfalls k hlt hkj

/-- **A stretch runs to the next rising position after a falling one.** -/
theorem stretch_drop {text : List Nat} (hi : i < text.length) :
    ∃ j, i < j ∧ j ≤ text.length ∧ afterStretch (text.drop i) = text.drop j
      ∧ stretch untagged (text.drop i) = (trail (text.drop i)).take (j + 1 - i)
      ∧ (∀ k, i ≤ k → k + 1 < j → ¬ (¬ Rises (text.drop k) ∧ Rises (text.drop (k + 1))))
      ∧ (j < text.length → ¬ Rises (text.drop (j - 1)) ∧ Rises (text.drop j)) := by
  induction h : text.length - i generalizing i with
  | zero => omega
  | succ d ih =>
    obtain ⟨a, ha⟩ := drop_eq_cons hi
    by_cases hrises : Rises (text.drop i)
    · have hlt : i + 1 < text.length := by
        by_contra hge
        rw [ha, List.drop_eq_nil_of_le (Nat.le_of_not_lt hge)] at hrises
        exact not_rises_singleton a hrises
      obtain ⟨j, hij, hj, hafter, htake, hnone, hend⟩ := ih hlt (by omega)
      refine ⟨j, by omega, hj, ?_, ?_, fun k hik hkj => ?_, hend⟩
      · rw [ha] at hrises ⊢
        rw [afterStretch, if_pos hrises, hafter]
      · rw [ha] at hrises ⊢
        rw [stretch_of_rises hrises, trail, htake, show j + 1 - i = j + 1 - (i + 1) + 1 by omega,
          List.take_succ_cons]
      · rcases Nat.eq_or_lt_of_le hik with rfl | hlt
        · exact fun hvalley => hvalley.1 hrises
        · exact hnone k hlt hkj
    · obtain ⟨j, hij, hj, hafter, htake, hfalls, hend⟩ :=
        descent_drop (show i + 1 ≤ text.length by omega)
      refine ⟨j, hij, hj, ?_, ?_, fun k hik hkj hvalley => ?_, fun hlt => ⟨?_, hend hlt⟩⟩
      · rw [ha] at hrises ⊢
        rw [afterStretch, if_neg hrises, hafter]
      · rw [ha] at hrises ⊢
        rw [stretch_of_not_rises hrises, trail, htake,
          show j + 1 - i = j + 1 - (i + 1) + 1 by omega, List.take_succ_cons]
      · exact hfalls (k + 1) (by omega) hkj hvalley.2
      · rcases Nat.eq_or_lt_of_le hij with rfl | hlt'
        · exact hrises
        · exact hfalls (j - 1) (by omega) (by omega)

/-- The entry of an ascending list after the one at `k`: the least larger one. -/
theorem getElem?_succ_of_sorted {l : List Nat} (hl : l.Pairwise (· < ·)) {k j : Nat}
    (hk : k < l.length) (hj : j ∈ l) (hlt : l[k] < j) (hleast : ∀ x ∈ l, l[k] < x → j ≤ x) :
    l[k + 1]? = some j := by
  obtain ⟨p, hp, rfl⟩ := List.getElem_of_mem hj
  have hkp : k < p := by
    rcases Nat.lt_trichotomy p k with h | rfl | h
    · have := List.pairwise_iff_getElem.mp hl p k hp hk h
      omega
    · omega
    · exact h
  have hnext : l[k] < l[k + 1] := List.pairwise_iff_getElem.mp hl k (k + 1) hk (by omega) (by omega)
  have hle := hleast l[k + 1] (List.getElem_mem _) hnext
  rcases Nat.eq_or_lt_of_le (show k + 1 ≤ p from hkp) with heq | hlt'
  · subst heq
    exact List.getElem?_eq_getElem hp
  · have := List.pairwise_iff_getElem.mp hl (k + 1) p (by omega) hp hlt'
    omega

/-- The entry of an ascending list that has nothing above it is the last. -/
theorem length_eq_of_sorted {l : List Nat} (hl : l.Pairwise (· < ·)) {k : Nat} (hk : k < l.length)
    (hnone : ∀ x ∈ l, ¬ l[k] < x) : l.length = k + 1 := by
  by_contra hne
  have hk' : k + 1 < l.length := by omega
  exact hnone l[k + 1] (List.getElem_mem hk')
    (List.pairwise_iff_getElem.mp hl k (k + 1) hk hk' (by omega))

/-- **The stretch of the `k`-th valley** — from the valley at `i` to the next one at `j`, both
included, or to the end of the text. -/
structure IsStretch (symbols : Array Nat) (top k i j : Nat) : Prop where
  valley : (valleys (Layout.ofSymbols symbols top).rises)[k]? = some i
  ends : stretchEnd symbols.size (valleys (Layout.ofSymbols symbols top).rises).toArray k = j
  lt : i < j
  le_size : j ≤ symbols.size
  after : afterStretch (symbols.toList.drop i) = symbols.toList.drop j
  grades : stretch untagged (symbols.toList.drop i)
    = (trail (symbols.toList.drop i)).take (j + 1 - i)
  next : j < symbols.size → (valleys (Layout.ofSymbols symbols top).rises)[k + 1]? = some j
  last : j = symbols.size → (valleys (Layout.ofSymbols symbols top).rises).length = k + 1

/-- **Every valley has its stretch.** -/
theorem isStretch_of_valley {k : Nat}
    (hvalley : (valleys (Layout.ofSymbols symbols top).rises)[k]? = some i) :
    IsStretch symbols top k i
      (stretchEnd symbols.size (valleys (Layout.ofSymbols symbols top).rises).toArray k) := by
  obtain ⟨hk, hi⟩ := List.getElem?_eq_some_iff.mp hvalley
  have hmem : i ∈ valleys (Layout.ofSymbols symbols top).rises := List.mem_of_getElem? hvalley
  obtain ⟨e, hie, he, hafter, htake, hnone, hend⟩ :=
    stretch_drop (show i < symbols.toList.length by simpa using (mem_valleys_iff.mp hmem).1)
  rw [Array.length_toList] at he hend
  have hleast : ∀ x ∈ valleys (Layout.ofSymbols symbols top).rises, i < x → e ≤ x := by
    intro x hx hix
    obtain ⟨y, rfl, -, hfalls, hrises⟩ := exists_of_mem_valleys hx
    by_contra hlt
    exact hnone y (by omega) (by omega) ⟨hfalls, hrises⟩
  rcases Nat.eq_or_lt_of_le he with rfl | hlt
  · -- no valley follows
    have hlast := length_eq_of_sorted (sorted_valleys _) hk fun x hx hlt =>
      Nat.not_le.mpr (mem_valleys_iff.mp hx).1 (hleast x hx (hi ▸ hlt))
    have hends : stretchEnd symbols.size
        (valleys (Layout.ofSymbols symbols top).rises).toArray k = symbols.size := by
      rw [stretchEnd, List.getElem?_toArray, List.getElem?_eq_none hlast.le, Option.getD_none]
    rw [hends]
    exact ⟨hvalley, hends, hie, le_rfl, hafter, htake, fun h => absurd h (lt_irrefl _),
      fun _ => hlast⟩
  · have hmem' : e ∈ valleys (Layout.ofSymbols symbols top).rises := by
      obtain ⟨hfalls, hrises⟩ := hend hlt
      have hsucc : e - 1 + 1 ∈ valleys (Layout.ofSymbols symbols top).rises :=
        succ_mem_valleys (by omega) hfalls (by rwa [show e - 1 + 1 = e by omega])
      rwa [show e - 1 + 1 = e by omega] at hsucc
    have hnext := getElem?_succ_of_sorted (sorted_valleys _) hk hmem' (by omega)
      (by rw [hi]; exact hleast)
    have hends : stretchEnd symbols.size
        (valleys (Layout.ofSymbols symbols top).rises).toArray k = e := by
      rw [stretchEnd, List.getElem?_toArray, hnext, Option.getD_some]
    rw [hends]
    exact ⟨hvalley, hends, hie, he, hafter, htake, fun _ => hnext, fun h => absurd h (by omega)⟩

end CodeClones.Suffix
