import CodeClones.Proofs.Suffix.Trail

/-!
# Proofs/Suffix/Stretch — what a sweep compares

A *stretch* of grades climbs while the positions rise and then falls to the next rising position,
which it includes; a *descent* is what is left of it once it falls.  Both may carry a tag at their
end, by which ties are broken.  Tagged with the trail of what follows they are the whole trail
(`stretch_trail`); with no tag, the stretches of two valleys are compared as the valleys are named.

What follows a stretch decides between suffixes whose stretches are equal
(`lt_of_stretch_eq`), and otherwise the stretches do (`lt_of_stretch_lt`): sorting valleys by
their stretches, then by what follows, sorts their suffixes.
-/

namespace CodeClones.Suffix

/-- **The grades down to the first rising position**, which is included; then the tag of what is
left after it. -/
def descent (tag : List Nat → List Nat) : List Nat → List Nat
  | [] => []
  | a :: rest => grade a rest :: if Rises (a :: rest) then tag rest else descent tag rest

/-- **The grades up to the last position that rises, then down to the next one that does.** -/
def stretch (tag : List Nat → List Nat) : List Nat → List Nat
  | [] => []
  | a :: rest => grade a rest :: if Rises (a :: rest) then stretch tag rest else descent tag rest

/-- What a descent leaves: the suffix at the first rising position. -/
def afterDescent : List Nat → List Nat
  | [] => []
  | a :: rest => if Rises (a :: rest) then a :: rest else afterDescent rest

/-- What a stretch leaves: the suffix at the next valley. -/
def afterStretch : List Nat → List Nat
  | [] => []
  | a :: rest => if Rises (a :: rest) then afterStretch rest else afterDescent rest

/-- A descent or a stretch without a tag. -/
def untagged : List Nat → List Nat := fun _ => []

variable {tag : List Nat → List Nat} {a b : Nat} {as bs rest : List Nat}

theorem descent_of_rises (h : Rises (a :: rest)) :
    descent tag (a :: rest) = grade a rest :: tag rest := by rw [descent, if_pos h]

theorem descent_of_not_rises (h : ¬ Rises (a :: rest)) :
    descent tag (a :: rest) = grade a rest :: descent tag rest := by rw [descent, if_neg h]

theorem stretch_of_rises (h : Rises (a :: rest)) :
    stretch tag (a :: rest) = grade a rest :: stretch tag rest := by rw [stretch, if_pos h]

theorem stretch_of_not_rises (h : ¬ Rises (a :: rest)) :
    stretch tag (a :: rest) = grade a rest :: descent tag rest := by rw [stretch, if_neg h]

/-- A falling position has the same stretch as descent. -/
theorem stretch_eq_descent (h : ¬ Rises (a :: rest)) :
    stretch tag (a :: rest) = descent tag (a :: rest) := by
  rw [stretch_of_not_rises h, descent_of_not_rises h]

/-! ## Whole trails -/

theorem descent_trail (suffix : List Nat) : descent trail suffix = trail suffix := by
  induction suffix with
  | nil => rfl
  | cons a rest ih => rw [descent, ih, ite_self, trail]

/-- **Tagged with what follows, a stretch is the whole trail.** -/
theorem stretch_trail (suffix : List Nat) : stretch trail suffix = trail suffix := by
  induction suffix with
  | nil => rfl
  | cons a rest ih => rw [stretch, ih, descent_trail, ite_self, trail]

/-! ## One position

After the first grade a descent and a stretch go on in one way where the position rises, and in
another where it does not.  Positions of equal grades go on in the same way. -/

section Position

variable {up down up' down' : List Nat}

theorem graded_lt_iff :
    (grade a as :: if Rises (a :: as) then up else down) <
        (grade b bs :: if Rises (b :: bs) then up' else down') ↔
      grade a as < grade b bs ∨
        grade a as = grade b bs ∧ if Rises (a :: as) then up < up' else down < down' := by
  rw [List.cons_lt_cons_iff]
  refine or_congr_right (and_congr_right fun heq => ?_)
  obtain ⟨-, htypes⟩ := grade_eq_grade_iff.mp heq
  by_cases ha : Rises (a :: as)
  · rw [if_pos ha, if_pos ha, if_pos (htypes.mp ha)]
  · rw [if_neg ha, if_neg ha, if_neg fun hb => ha (htypes.mpr hb)]

/-- **Positions that differ decide, others leave it to what follows them.** -/
theorem cons_lt_of_graded_lt
    (h : (grade a as :: if Rises (a :: as) then up else down) <
      (grade b bs :: if Rises (b :: bs) then up' else down'))
    (hup : up < up' → as < bs) (hdown : down < down' → as < bs) : a :: as < b :: bs := by
  rw [← trail_lt_trail_iff, trail, trail, List.cons_lt_cons_iff]
  rcases graded_lt_iff.mp h with hlt | ⟨heq, htail⟩
  · exact Or.inl hlt
  · refine Or.inr ⟨heq, trail_lt_trail ?_⟩
    split at htail
    · exact hup htail
    · exact hdown htail

theorem types_and_tails_of_graded_eq
    (h : (grade a as :: if Rises (a :: as) then up else down) =
      grade b bs :: if Rises (b :: bs) then up' else down') :
    a = b ∧ (Rises (a :: as) ∧ Rises (b :: bs) ∧ up = up' ∨
      ¬ Rises (a :: as) ∧ ¬ Rises (b :: bs) ∧ down = down') := by
  rw [List.cons.injEq] at h
  obtain ⟨hgrade, htail⟩ := h
  obtain ⟨hab, htypes⟩ := grade_eq_grade_iff.mp hgrade
  refine ⟨hab, ?_⟩
  by_cases ha : Rises (a :: as)
  · have hb := htypes.mp ha
    rw [if_pos ha, if_pos hb] at htail
    exact Or.inl ⟨ha, hb, htail⟩
  · have hb : ¬ Rises (b :: bs) := fun hb => ha (htypes.mpr hb)
    rw [if_neg ha, if_neg hb] at htail
    exact Or.inr ⟨ha, hb, htail⟩

end Position

/-! ## Forgetting the tags -/

theorem descent_untagged_le (h : descent tag as < descent tag bs) :
    ¬ descent untagged bs < descent untagged as := by
  induction as generalizing bs with
  | nil => exact List.not_lt_nil _
  | cons a as ih =>
    cases bs with
    | nil => exact absurd h (List.not_lt_nil _)
    | cons b bs =>
      rw [descent, descent, graded_lt_iff] at h ⊢
      rintro (hlt | ⟨heq, htail⟩)
      · omega
      · rcases h with h | ⟨-, h⟩
        · omega
        · have htypes := (grade_eq_grade_iff.mp heq).2
          by_cases ha : Rises (a :: as)
          · rw [if_pos (htypes.mpr ha)] at htail
            exact absurd htail (List.not_lt_nil _)
          · rw [if_neg ha] at h
            rw [if_neg fun hb => ha (htypes.mp hb)] at htail
            exact ih h htail

/-- **Tags only break ties.** -/
theorem stretch_untagged_le (h : stretch tag as < stretch tag bs) :
    ¬ stretch untagged bs < stretch untagged as := by
  induction as generalizing bs with
  | nil => exact List.not_lt_nil _
  | cons a as ih =>
    cases bs with
    | nil => exact absurd h (List.not_lt_nil _)
    | cons b bs =>
      rw [stretch, stretch, graded_lt_iff] at h ⊢
      rintro (hlt | ⟨heq, htail⟩)
      · omega
      · rcases h with h | ⟨-, h⟩
        · omega
        · have htypes := (grade_eq_grade_iff.mp heq).2
          by_cases ha : Rises (a :: as)
          · rw [if_pos ha] at h
            rw [if_pos (htypes.mpr ha)] at htail
            exact ih h htail
          · rw [if_neg ha] at h
            rw [if_neg fun hb => ha (htypes.mp hb)] at htail
            exact descent_untagged_le h htail

/-! ## Stretch by stretch -/

theorem lt_of_descent_lt (h : descent untagged as < descent untagged bs) : as < bs := by
  induction as generalizing bs with
  | nil =>
    cases bs with
    | nil => exact absurd h (List.not_lt_nil _)
    | cons b bs => exact List.nil_lt_cons _ _
  | cons a as ih =>
    cases bs with
    | nil => exact absurd h (List.not_lt_nil _)
    | cons b bs =>
      rw [descent, descent] at h
      exact cons_lt_of_graded_lt h (fun hup => absurd hup (List.not_lt_nil _)) ih

/-- **Different stretches decide the order of the suffixes.** -/
theorem lt_of_stretch_lt (h : stretch untagged as < stretch untagged bs) : as < bs := by
  induction as generalizing bs with
  | nil =>
    cases bs with
    | nil => exact absurd h (List.not_lt_nil _)
    | cons b bs => exact List.nil_lt_cons _ _
  | cons a as ih =>
    cases bs with
    | nil => exact absurd h (List.not_lt_nil _)
    | cons b bs =>
      rw [stretch, stretch] at h
      exact cons_lt_of_graded_lt h ih lt_of_descent_lt

theorem lt_of_descent_eq (h : descent untagged as = descent untagged bs)
    (hafter : afterDescent as < afterDescent bs) : as < bs := by
  induction as generalizing bs with
  | nil =>
    cases bs with
    | nil => exact absurd hafter (List.not_lt_nil _)
    | cons b bs => exact List.nil_lt_cons _ _
  | cons a as ih =>
    cases bs with
    | nil => exact absurd hafter (List.not_lt_nil _)
    | cons b bs =>
      rw [descent, descent] at h
      rw [afterDescent, afterDescent] at hafter
      obtain ⟨rfl, ⟨ha, hb, -⟩ | ⟨ha, hb, htail⟩⟩ := types_and_tails_of_graded_eq h
      · rwa [if_pos ha, if_pos hb] at hafter
      · rw [if_neg ha, if_neg hb] at hafter
        exact List.cons_lt_cons_iff.mpr (Or.inr ⟨rfl, ih htail hafter⟩)

/-- **After equal stretches, what follows decides.** -/
theorem lt_of_stretch_eq (h : stretch untagged as = stretch untagged bs)
    (hafter : afterStretch as < afterStretch bs) : as < bs := by
  induction as generalizing bs with
  | nil =>
    cases bs with
    | nil => exact absurd hafter (List.not_lt_nil _)
    | cons b bs => exact List.nil_lt_cons _ _
  | cons a as ih =>
    cases bs with
    | nil => exact absurd hafter (List.not_lt_nil _)
    | cons b bs =>
      rw [stretch, stretch] at h
      rw [afterStretch, afterStretch] at hafter
      obtain ⟨rfl, htail⟩ := types_and_tails_of_graded_eq h
      refine List.cons_lt_cons_iff.mpr (Or.inr ⟨rfl, ?_⟩)
      rcases htail with ⟨ha, hb, htail⟩ | ⟨ha, hb, htail⟩
      · rw [if_pos ha, if_pos hb] at hafter
        exact ih htail hafter
      · rw [if_neg ha, if_neg hb] at hafter
        exact lt_of_descent_eq htail hafter

end CodeClones.Suffix
