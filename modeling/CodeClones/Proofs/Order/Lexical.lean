import CodeClones.Order.Lexical
import Mathlib

/-!
# Proofs/Order/Lexical — lexicographic comparison is the order of lists

`lexLess` computes the order that lists carry over a linear order, so every fact about that order
is a fact about the comparison.
-/

namespace CodeClones.Order

variable {α : Type}

/-- **The comparison decides the order of lists.** -/
theorem lexLess_eq_true_iff [LinearOrder α] {less : α → α → Bool}
    (hless : ∀ a b, less a b = true ↔ a < b) (as bs : List α) :
    lexLess less as bs = true ↔ as < bs := by
  induction as generalizing bs with
  | nil => cases bs <;> simp [lexLess]
  | cons a as ih =>
    cases bs with
    | nil => simp
    | cons b bs =>
      rw [List.cons_lt_cons_iff, lexLess, Bool.or_eq_true, Bool.and_eq_true, ih, hless,
        Bool.not_eq_true', ← Bool.not_eq_true, hless]
      constructor
      · rintro (h | ⟨h, htail⟩)
        · exact Or.inl h
        · rcases lt_or_eq_of_le (not_lt.mp h) with hlt | heq
          · exact Or.inl hlt
          · exact Or.inr ⟨heq, htail⟩
      · rintro (h | ⟨rfl, htail⟩)
        · exact Or.inl h
        · exact Or.inr ⟨lt_irrefl a, htail⟩

/-- The weak comparison decides the weak order. -/
theorem lexLe_eq_true_iff [LinearOrder α] {less : α → α → Bool}
    (hless : ∀ a b, less a b = true ↔ a < b) (as bs : List α) :
    lexLe less as bs = true ↔ as ≤ bs := by
  rw [lexLe, Bool.not_eq_true', ← Bool.not_eq_true, lexLess_eq_true_iff hless, not_lt]

/-- Comparing what the entries are mapped to. -/
theorem lexLess_map {β : Type} (less : β → β → Bool) (f : α → β) (as bs : List α) :
    lexLess less (as.map f) (bs.map f) = lexLess (fun a b => less (f a) (f b)) as bs := by
  induction as generalizing bs with
  | nil => cases bs <;> rfl
  | cons a as ih =>
    cases bs with
    | nil => rfl
    | cons b bs => rw [List.map_cons, List.map_cons, lexLess, lexLess, ih]

/-- **A strictly monotone recoding keeps the order of lists.** -/
theorem map_lt_map_iff {β : Type} [LinearOrder α] [LinearOrder β] {f : α → β} {as bs : List α}
    (hf : ∀ a ∈ as, ∀ b ∈ bs, f a < f b ↔ a < b) (hinj : ∀ a ∈ as, ∀ b ∈ bs, f a = f b ↔ a = b) :
    as.map f < bs.map f ↔ as < bs := by
  induction as generalizing bs with
  | nil => cases bs <;> simp
  | cons a as ih =>
    cases bs with
    | nil => simp
    | cons b bs =>
      rw [List.map_cons, List.map_cons, List.cons_lt_cons_iff, List.cons_lt_cons_iff,
        hf a (by simp) b (by simp), hinj a (by simp) b (by simp),
        ih (fun x hx y hy => hf x (List.mem_cons_of_mem _ hx) y (List.mem_cons_of_mem _ hy))
          (fun x hx y hy => hinj x (List.mem_cons_of_mem _ hx) y (List.mem_cons_of_mem _ hy))]

/-! ## A least entry at the end -/

section Bot

variable [LinearOrder α] [OrderBot α] {as bs : List α}

/-- **A least entry at the end of the smaller list** changes nothing. -/
theorem append_bot_lt_iff (hbs : ⊥ ∉ bs) : as ++ [⊥] < bs ↔ as < bs := by
  induction as generalizing bs with
  | nil =>
    cases bs with
    | nil => simp
    | cons b bs =>
      have hb : ⊥ < b := bot_lt_iff_ne_bot.mpr fun h => hbs (h ▸ List.mem_cons_self)
      exact iff_of_true (List.cons_lt_cons_iff.mpr (Or.inl hb)) (List.nil_lt_cons _ _)
  | cons a as ih =>
    cases bs with
    | nil => simp
    | cons b bs =>
      rw [List.cons_append, List.cons_lt_cons_iff, List.cons_lt_cons_iff,
        ih fun h => hbs (List.mem_cons_of_mem b h)]

/-- **A least entry at the end of the greater list** puts it after an equal one. -/
theorem lt_append_bot_iff (has : ⊥ ∉ as) : as < bs ++ [⊥] ↔ as ≤ bs := by
  have hne : bs ++ [⊥] ≠ as := fun h =>
    has (h ▸ List.mem_append_right bs (List.mem_singleton_self ⊥))
  rw [← not_lt, ← append_bot_lt_iff has, not_lt, le_iff_lt_or_eq, or_iff_left hne.symm]

end Bot

end CodeClones.Order
