import Mathlib

/-!
# Proofs/Text/Joined — taking joined lists apart

Lists joined by a separator can be taken apart again if no part has the separator, or if no part
begins with another one and a separator (`intercalate_inj`).  Where every part is closed by the
separator, nothing but the parts has to be known (`flatMap_concat_inj`): not even how many there
are.
-/

namespace CodeClones

variable {α : Type} {x : α} {as as' bs bs' : List α}

/-- The first separator is at one place if it does not come earlier on either side. -/
theorem append_cons_inj_of_not_prefix (h : as ++ x :: bs = as' ++ x :: bs')
    (has : ¬ as' ++ [x] <+: as) (has' : ¬ as ++ [x] <+: as') : as = as' ∧ bs = bs' := by
  rcases List.append_eq_append_iff.mp h with ⟨cs, rfl, hcs⟩ | ⟨cs, rfl, hcs⟩
  · match cs with
    | [] => exact ⟨(List.append_nil as).symm, (List.cons.inj hcs).2⟩
    | c :: cs =>
      obtain ⟨rfl, -⟩ := List.cons.inj hcs
      exact absurd ⟨cs, by simp⟩ has'
  · match cs with
    | [] => exact ⟨List.append_nil as', (List.cons.inj hcs).2.symm⟩
    | c :: cs =>
      obtain ⟨rfl, -⟩ := List.cons.inj hcs
      exact absurd ⟨cs, by simp⟩ has

theorem not_concat_prefix_of_notMem (h : x ∉ as) : ¬ as' ++ [x] <+: as :=
  fun hbegins => h (hbegins.subset (by simp))

theorem append_cons_inj (h : as ++ x :: bs = as' ++ x :: bs') (has : x ∉ as) (has' : x ∉ as') :
    as = as' ∧ bs = bs' :=
  append_cons_inj_of_not_prefix h (not_concat_prefix_of_notMem has)
    (not_concat_prefix_of_notMem has')

/-- The same from the right: neither remainder has the separator. -/
theorem append_cons_inj_right (h : as ++ x :: bs = as' ++ x :: bs') (hbs : x ∉ bs)
    (hbs' : x ∉ bs') : as = as' ∧ bs = bs' := by
  have hreverse := congrArg List.reverse h
  rw [List.reverse_append, List.reverse_append, List.reverse_cons, List.reverse_cons,
    List.append_assoc, List.append_assoc] at hreverse
  obtain ⟨hright, hleft⟩ := append_cons_inj hreverse (fun hx => hbs (List.mem_reverse.mp hx))
    (fun hx => hbs' (List.mem_reverse.mp hx))
  exact ⟨List.reverse_injective hleft, List.reverse_injective hright⟩

/-- A list with a separator after it begins what follows only if it begins the part before. -/
theorem concat_prefix_of_notMem (h : as' ++ [x] <+: as ++ bs) (hbs : x ∉ bs) :
    as' ++ [x] <+: as := by
  rcases List.prefix_or_prefix_of_prefix h (List.prefix_append as bs) with hle | ⟨cs, hcs⟩
  · exact hle
  · rcases List.eq_nil_or_concat' cs with rfl | ⟨cs, c, rfl⟩
    · exact ⟨[], by rw [← hcs, List.append_nil, List.append_nil]⟩
    · rw [← List.append_assoc] at hcs
      obtain ⟨-, hlast⟩ := List.append_inj' hcs rfl
      obtain rfl := List.singleton_inj.mp hlast
      rw [← hcs, List.append_assoc, List.prefix_append_right_inj] at h
      exact absurd (h.subset (by simp)) hbs

/-- **Lists joined by a separator can be told apart** if no part begins with another one and a
separator. -/
theorem intercalate_inj {xs ys : List (List α)} (h : [x].intercalate xs = [x].intercalate ys)
    (hxs : ∀ a ∈ xs, ∀ b ∈ ys, ¬ b ++ [x] <+: a) (hys : ∀ b ∈ ys, ∀ a ∈ xs, ¬ a ++ [x] <+: b)
    (hne : xs ≠ []) (hne' : ys ≠ []) : xs = ys := by
  induction xs generalizing ys with
  | nil => exact absurd rfl hne
  | cons a xs ih =>
    match ys with
    | [] => exact absurd rfl hne'
    | b :: ys =>
      have ha := hxs a List.mem_cons_self b List.mem_cons_self
      have hb := hys b List.mem_cons_self a List.mem_cons_self
      match xs, ys with
      | [], [] => simpa using h
      | [], b' :: ys =>
        rw [List.intercalate_singleton, List.intercalate_cons_cons] at h
        exact absurd ⟨_, h.symm⟩ ha
      | a' :: xs, [] =>
        rw [List.intercalate_singleton, List.intercalate_cons_cons] at h
        exact absurd ⟨_, h⟩ hb
      | a' :: xs, b' :: ys =>
        rw [List.intercalate_cons_cons, List.intercalate_cons_cons, List.append_assoc,
          List.append_assoc] at h
        obtain ⟨rfl, hrest⟩ := append_cons_inj_of_not_prefix h ha hb
        rw [ih hrest
          (fun l hl l' hl' => hxs l (List.mem_cons_of_mem _ hl) l' (List.mem_cons_of_mem _ hl'))
          (fun l hl l' hl' => hys l (List.mem_cons_of_mem _ hl) l' (List.mem_cons_of_mem _ hl'))
          (by simp) (by simp)]

/-- **Lists closed by a separator can be told apart** if no part has it. -/
theorem flatMap_concat_inj {xs ys : List (List α)} (hxs : ∀ a ∈ xs, x ∉ a) (hys : ∀ b ∈ ys, x ∉ b)
    (h : xs.flatMap (· ++ [x]) = ys.flatMap (· ++ [x])) : xs = ys := by
  induction xs generalizing ys with
  | nil =>
    cases ys with
    | nil => rfl
    | cons b ys => simp at h
  | cons a xs ih =>
    cases ys with
    | nil => simp at h
    | cons b ys =>
      rw [List.forall_mem_cons] at hxs hys
      rw [List.flatMap_cons, List.flatMap_cons, List.append_assoc, List.append_assoc,
        List.singleton_append, List.singleton_append] at h
      obtain ⟨rfl, hrest⟩ := append_cons_inj h hxs.1 hys.1
      rw [ih hxs.2 hys.2 hrest]

end CodeClones
