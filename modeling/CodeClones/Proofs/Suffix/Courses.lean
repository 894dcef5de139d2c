import CodeClones.Proofs.Suffix.Filling
import CodeClones.Proofs.Suffix.Stretch

/-!
# Proofs/Suffix/Courses — the two sweeps as courses

From left to right the slots fill in the order of the descents: first the valleys, put at the fronts
of the rising segments, then everything that falls (`forward`).  From right to left they fill in the
order of the stretches (`backward`); counting slots and segments from the end turns this into
filling from the front.  Both sweeps are `Chained`: a descent is a grade followed by the descent of
the next position, and likewise a stretch.
-/

namespace CodeClones.Suffix

/-- The suffix at a position within the text. -/
theorem drop_eq_cons {text : List Nat} {i : Nat} (hi : i < text.length) :
    ∃ a, text.drop i = a :: text.drop (i + 1) :=
  ⟨text[i], List.drop_eq_getElem_cons hi⟩

theorem getElem?_trail {text rest : List Nat} {a i : Nat} (h : text.drop i = a :: rest) :
    (trail text)[i]? = some (grade a rest) := by
  have hhead : ((trail text).drop i)[0]? = some (grade a rest) := by
    rw [drop_trail, h, trail, List.getElem?_cons_zero]
  rwa [List.getElem?_drop, Nat.add_zero] at hhead

theorem getD_trail {text rest : List Nat} {a i : Nat} (h : text.drop i = a :: rest) :
    (trail text).getD i 0 = grade a rest := by
  rw [List.getD_eq_getElem?_getD, getElem?_trail h, Option.getD_some]

theorem getD_map_trail {text rest : List Nat} {a i : Nat} (f : Nat → Nat)
    (h : text.drop i = a :: rest) : ((trail text).map f).getD i 0 = f (grade a rest) := by
  rw [List.getD_eq_getElem?_getD, List.getElem?_map, getElem?_trail h, Option.map_some,
    Option.getD_some]

theorem mem_of_drop_eq_cons {text rest : List Nat} {a i : Nat} (h : text.drop i = a :: rest) :
    a ∈ text :=
  List.mem_of_mem_drop (h ▸ List.mem_cons_self)

theorem grade_le {a top : Nat} (rest : List Nat) (ha : a ≤ top) : grade a rest ≤ 2 * top + 1 := by
  rw [grade]
  split <;> omega

theorem mem_trail {text : List Nat} {g : Nat} (hg : g ∈ trail text) :
    ∃ a ∈ text, ∃ rest, g = grade a rest := by
  induction text with
  | nil => simp [trail] at hg
  | cons a rest ih =>
    rcases List.mem_cons.mp hg with rfl | hg
    · exact ⟨a, List.mem_cons_self, rest, rfl⟩
    · obtain ⟨b, hb, r, h⟩ := ih hg
      exact ⟨b, List.mem_cons_of_mem _ hb, r, h⟩

/-- **A falling position is in the same segment as the next one or in a later one.** -/
theorem grade_le_of_not_rises {a b : Nat} {rest : List Nat} (h : ¬ Rises (a :: b :: rest)) :
    grade b rest ≤ grade a (b :: rest) := by
  rw [grade_of_not_rises h]
  rw [rises_cons_cons, not_or, not_and] at h
  rcases Nat.eq_or_lt_of_le (Nat.le_of_not_lt h.1) with rfl | hlt
  · rw [grade_of_not_rises (h.2 rfl)]
  · have := grade_le rest (Nat.le_sub_one_of_lt hlt)
    omega

/-- **A rising position is in the same segment as the next one or in an earlier one.** -/
theorem grade_le_of_rises {a b : Nat} {rest : List Nat} (h : Rises (a :: b :: rest)) :
    grade a (b :: rest) ≤ grade b rest := by
  rw [grade_of_rises h]
  rcases rises_cons_cons.mp h with hlt | ⟨rfl, hb⟩
  · rw [grade]
    omega
  · rw [grade_of_rises hb]

namespace Course

variable (tag : List Nat → List Nat) (text : List Nat)

/-! ## From left to right -/

/-- **The courses from left to right** — of the rising positions, which seed the sweep, or of the
falling ones, which it places. -/
def forward (up : Bool) : Course where
  segments := trail text
  moves i := decide (Rises (text.drop i)) == up
  before i j := descent tag (text.drop i) < descent tag (text.drop j)
  irrefl _ := lt_irrefl _
  before_of_segment_lt hi hj hlt := by
    rw [length_trail] at hi hj
    obtain ⟨a, ha⟩ := drop_eq_cons hi
    obtain ⟨b, hb⟩ := drop_eq_cons hj
    rw [getD_trail ha, getD_trail hb] at hlt
    rw [ha, hb, descent, descent]
    exact List.cons_lt_cons_iff.mpr (Or.inl hlt)
  moves_of_segment_eq hi hj heq hmoves := by
    rw [length_trail] at hi hj
    obtain ⟨a, ha⟩ := drop_eq_cons hi
    obtain ⟨b, hb⟩ := drop_eq_cons hj
    rw [getD_trail ha, getD_trail hb] at heq
    rw [hb, ← hmoves, ha, decide_eq_decide.mpr (grade_eq_grade_iff.mp heq).2]

@[simp] theorem size_forward (up : Bool) : (forward tag text up).size = text.length :=
  length_trail text

variable {tag text}

theorem segment_forward {up : Bool} {a i : Nat} {rest : List Nat} (h : text.drop i = a :: rest) :
    (forward tag text up).segment i = grade a rest := getD_trail h

@[simp] theorem moves_fall_iff {i : Nat} :
    (forward tag text false).moves i = true ↔ ¬ Rises (text.drop i) := by simp [forward]

@[simp] theorem moves_seed_iff {i : Nat} :
    (forward tag text true).moves i = true ↔ Rises (text.drop i) := by simp [forward]

/-- **The sweep from left to right.** -/
theorem chained_forward : (forward tag text false).Chained where
  before_of_next {i j} hi hj hmoves hseg hbefore := by
    rw [size_forward] at hi hj
    obtain ⟨a, ha⟩ := drop_eq_cons (Nat.lt_of_succ_lt hi)
    obtain ⟨b, hb⟩ := drop_eq_cons (Nat.lt_of_succ_lt hj)
    rw [segment_forward ha, segment_forward hb] at hseg
    rw [moves_fall_iff, ha] at hmoves
    have hb' : ¬ Rises (b :: text.drop (j + 1)) := fun h =>
      hmoves ((grade_eq_grade_iff.mp hseg).2.mpr h)
    change descent tag (text.drop i) < descent tag (text.drop j)
    rw [ha, hb, descent_of_not_rises hmoves, descent_of_not_rises hb']
    exact List.cons_lt_cons_iff.mpr (Or.inr ⟨hseg, hbefore⟩)
  before_of_last {i j} hi hmoves hj hne hseg := by
    rw [size_forward] at hi hj
    obtain ⟨a, ha⟩ := drop_eq_cons (show i < text.length by omega)
    obtain ⟨b, hb⟩ := drop_eq_cons hj
    obtain ⟨b', hb'⟩ := drop_eq_cons (show j + 1 < text.length by omega)
    rw [segment_forward ha, segment_forward hb] at hseg
    rw [moves_fall_iff, ha] at hmoves
    have hfalls : ¬ Rises (b :: text.drop (j + 1)) := fun h =>
      hmoves ((grade_eq_grade_iff.mp hseg).2.mp h)
    change descent tag (text.drop i) < descent tag (text.drop j)
    rw [ha, hb, descent_of_not_rises hmoves, descent_of_not_rises hfalls,
      List.drop_eq_nil_of_le (Nat.le_of_eq hi.symm), hb', descent, descent]
    rw [List.drop_eq_nil_of_le (Nat.le_of_eq hi.symm), hb'] at hseg
    exact List.cons_lt_cons_iff.mpr (Or.inr ⟨hseg.symm, List.nil_lt_cons _ _⟩)
  segment_next_le {i} hi hmoves := by
    rw [size_forward] at hi
    obtain ⟨a, ha⟩ := drop_eq_cons (Nat.lt_of_succ_lt hi)
    obtain ⟨b, hb⟩ := drop_eq_cons hi
    rw [moves_fall_iff, ha, hb] at hmoves
    rw [segment_forward ha, segment_forward hb, hb]
    exact grade_le_of_not_rises hmoves

/-! ## From right to left -/

/-- Counted from the end, a lower segment has the greater stretches. -/
theorem stretch_lt_of_segment_lt {top i j : Nat}
    (hi : i < ((trail text).map (2 * top + 1 - ·)).length)
    (hj : j < ((trail text).map (2 * top + 1 - ·)).length)
    (hlt : ((trail text).map (2 * top + 1 - ·)).getD i 0
      < ((trail text).map (2 * top + 1 - ·)).getD j 0) :
    stretch tag (text.drop j) < stretch tag (text.drop i) := by
  rw [List.length_map, length_trail] at hi hj
  obtain ⟨a, ha⟩ := drop_eq_cons hi
  obtain ⟨b, hb⟩ := drop_eq_cons hj
  rw [getD_map_trail _ ha, getD_map_trail _ hb] at hlt
  rw [ha, hb, stretch, stretch]
  exact List.cons_lt_cons_iff.mpr (Or.inl (by omega))

/-- Positions of one segment all rise or all fall. -/
theorem rises_iff_of_segment_eq {top i j : Nat} (htop : ∀ a ∈ text, a ≤ top)
    (hi : i < ((trail text).map (2 * top + 1 - ·)).length)
    (hj : j < ((trail text).map (2 * top + 1 - ·)).length)
    (heq : ((trail text).map (2 * top + 1 - ·)).getD i 0
      = ((trail text).map (2 * top + 1 - ·)).getD j 0) :
    Rises (text.drop i) ↔ Rises (text.drop j) := by
  rw [List.length_map, length_trail] at hi hj
  obtain ⟨a, ha⟩ := drop_eq_cons hi
  obtain ⟨b, hb⟩ := drop_eq_cons hj
  rw [getD_map_trail _ ha, getD_map_trail _ hb] at heq
  have hle := grade_le (text.drop (i + 1)) (htop a (mem_of_drop_eq_cons ha))
  have hle' := grade_le (text.drop (j + 1)) (htop b (mem_of_drop_eq_cons hb))
  have hgrade : grade a (text.drop (i + 1)) = grade b (text.drop (j + 1)) := by omega
  rw [ha, hb, (grade_eq_grade_iff.mp hgrade).2]

variable (tag text) in
/-- **The course from right to left** — of the rising positions, with the segments numbered from the
end; `top` bounds the symbols. -/
def backward (top : Nat) (htop : ∀ a ∈ text, a ≤ top) : Course where
  segments := (trail text).map (2 * top + 1 - ·)
  moves i := decide (Rises (text.drop i))
  before i j := stretch tag (text.drop j) < stretch tag (text.drop i)
  irrefl _ := lt_irrefl _
  before_of_segment_lt hi hj hlt := stretch_lt_of_segment_lt hi hj hlt
  moves_of_segment_eq hi hj heq hmoves :=
    decide_eq_true ((rises_iff_of_segment_eq htop hi hj heq).mp (of_decide_eq_true hmoves))

variable {top : Nat} {htop : ∀ a ∈ text, a ≤ top}

@[simp] theorem size_backward : (backward tag text top htop).size = text.length := by
  rw [size, backward, List.length_map, length_trail]

theorem segment_backward {a i : Nat} {rest : List Nat} (h : text.drop i = a :: rest) :
    (backward tag text top htop).segment i = 2 * top + 1 - grade a rest := getD_map_trail _ h

@[simp] theorem moves_backward_iff {i : Nat} :
    (backward tag text top htop).moves i = true ↔ Rises (text.drop i) := by simp [backward]

/-- **The sweep from right to left.** -/
theorem chained_backward : (backward tag text top htop).Chained where
  before_of_next {i j} hi hj hmoves hseg hbefore := by
    rw [size_backward] at hi hj
    obtain ⟨a, ha⟩ := drop_eq_cons (Nat.lt_of_succ_lt hi)
    obtain ⟨b, hb⟩ := drop_eq_cons (Nat.lt_of_succ_lt hj)
    rw [segment_backward ha, segment_backward hb] at hseg
    rw [moves_backward_iff, ha] at hmoves
    have hle := grade_le (text.drop (i + 1)) (htop a (mem_of_drop_eq_cons ha))
    have hle' := grade_le (text.drop (j + 1)) (htop b (mem_of_drop_eq_cons hb))
    have hgrade : grade b (text.drop (j + 1)) = grade a (text.drop (i + 1)) := by omega
    have hb' : Rises (b :: text.drop (j + 1)) := (grade_eq_grade_iff.mp hgrade).2.mpr hmoves
    change stretch tag (text.drop j) < stretch tag (text.drop i)
    rw [ha, hb, stretch_of_rises hmoves, stretch_of_rises hb']
    exact List.cons_lt_cons_iff.mpr (Or.inr ⟨hgrade, hbefore⟩)
  before_of_last {i j} hi hmoves _ _ _ := by
    rw [size_backward] at hi
    obtain ⟨a, ha⟩ := drop_eq_cons (show i < text.length by omega)
    rw [moves_backward_iff, ha, List.drop_eq_nil_of_le (Nat.le_of_eq hi.symm)] at hmoves
    exact absurd hmoves (not_rises_singleton a)
  segment_next_le {i} hi hmoves := by
    rw [size_backward] at hi
    obtain ⟨a, ha⟩ := drop_eq_cons (Nat.lt_of_succ_lt hi)
    obtain ⟨b, hb⟩ := drop_eq_cons hi
    rw [moves_backward_iff, ha, hb] at hmoves
    rw [segment_backward ha, segment_backward hb, hb]
    have := grade_le_of_rises hmoves
    omega

end Course

end CodeClones.Suffix
