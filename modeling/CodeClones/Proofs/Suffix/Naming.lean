import CodeClones.Proofs.Suffix.Valley

/-!
# Proofs/Suffix/Naming — valleys are named by their stretches

Comparing two stretches symbol by symbol tells whether they are equal as grades too, because the
types along a stretch follow from the symbols and the type at its end.  The comparison never reads
past the end of the text, provided that the stretches come in ascending order
(`IsStretch.sameStretch?_eq`): a stretch that runs to the end precedes those that continue it.
-/

namespace CodeClones.Suffix

/-! ## Comparing symbol by symbol -/

section Compare

variable {symbols : Array Nat} {l r d : Nat}

theorem drop_toList_eq_cons (h : l < symbols.size) :
    symbols.toList.drop l = symbols[l] :: symbols.toList.drop (l + 1) :=
  List.drop_eq_getElem_cons (by simpa using h)

/-- Both stretches end within the text. -/
theorem sameStretch?_of_lt (hl : l + d < symbols.size) (hr : r + d < symbols.size) :
    sameStretch? symbols l r (l + d) = some (decide ((symbols.toList.drop l).take (d + 1)
      = (symbols.toList.drop r).take (d + 1))) := by
  induction d generalizing l r with
  | zero =>
    rw [sameStretch?, if_neg (by omega), if_neg (by omega),
      drop_toList_eq_cons (show l < symbols.size by omega),
      drop_toList_eq_cons (show r < symbols.size by omega),
      Array.getElem?_eq_getElem (show l < symbols.size by omega),
      Array.getElem?_eq_getElem (show r < symbols.size by omega)]
    simp only [Option.bind_eq_bind, Option.bind_some, List.take_succ_cons, List.take_zero,
      List.cons.injEq, and_true]
    rfl
  | succ d ih =>
    have hrec := ih (l := l + 1) (r := r + 1) (by omega) (by omega)
    rw [show l + 1 + d = l + (d + 1) by omega] at hrec
    rw [sameStretch?, if_pos (by omega), drop_toList_eq_cons (show l < symbols.size by omega),
      drop_toList_eq_cons (show r < symbols.size by omega),
      Array.getElem?_eq_getElem (show l < symbols.size by omega),
      Array.getElem?_eq_getElem (show r < symbols.size by omega), List.take_succ_cons,
      List.take_succ_cons]
    simp only [Option.bind_eq_bind, Option.bind_some, List.cons.injEq]
    by_cases heq : symbols[l] = symbols[r]
    · rw [if_pos heq, hrec]
      simp only [heq, true_and]
    · rw [if_neg heq]
      simp only [heq, false_and, decide_false]
      rfl

/-- The stretch on the left runs to the end of the text. -/
theorem sameStretch?_of_left_end (hl : l + d = symbols.size) (hr : r + d ≤ symbols.size) :
    sameStretch? symbols l r (l + d) = some false := by
  induction d generalizing l r with
  | zero => rw [sameStretch?, if_neg (by omega), if_pos (by omega)]; rfl
  | succ d ih =>
    have hrec := ih (l := l + 1) (r := r + 1) (by omega) (by omega)
    rw [show l + 1 + d = l + (d + 1) by omega] at hrec
    rw [sameStretch?, if_pos (by omega),
      Array.getElem?_eq_getElem (show l < symbols.size by omega),
      Array.getElem?_eq_getElem (show r < symbols.size by omega)]
    simp only [Option.bind_eq_bind, Option.bind_some, hrec, Option.pure_def, ite_self]

/-- The stretch on the right runs to the end of the text: a difference is found before. -/
theorem sameStretch?_of_right_end (hl : l + d < symbols.size) (hr : r + d = symbols.size)
    (hne : (symbols.toList.drop l).take d ≠ (symbols.toList.drop r).take d) :
    sameStretch? symbols l r (l + d) = some false := by
  induction d generalizing l r with
  | zero => exact absurd rfl hne
  | succ d ih =>
    rw [drop_toList_eq_cons (show l < symbols.size by omega),
      drop_toList_eq_cons (show r < symbols.size by omega), List.take_succ_cons,
      List.take_succ_cons] at hne
    rw [sameStretch?, if_pos (by omega),
      Array.getElem?_eq_getElem (show l < symbols.size by omega),
      Array.getElem?_eq_getElem (show r < symbols.size by omega)]
    simp only [Option.bind_eq_bind, Option.bind_some]
    by_cases heq : symbols[l] = symbols[r]
    · have hrec := ih (l := l + 1) (r := r + 1) (by omega) (by omega)
        fun htail => hne (by rw [heq, htail])
      rw [show l + 1 + d = l + (d + 1) by omega] at hrec
      rw [if_pos heq, hrec]
    · rw [if_neg heq]
      rfl

end Compare

/-! ## Symbols and grades -/

/-- **Equal symbols up to a place of equal types have equal types throughout.** -/
theorem take_trail_eq {d : Nat} (as bs : List Nat) (has : d < as.length) (hbs : d < bs.length)
    (htake : as.take (d + 1) = bs.take (d + 1)) (htype : Rises (as.drop d) ↔ Rises (bs.drop d)) :
    (trail as).take (d + 1) = (trail bs).take (d + 1) := by
  induction d generalizing as bs with
  | zero =>
    obtain ⟨a, as, rfl⟩ := List.exists_cons_of_length_pos has
    obtain ⟨b, bs, rfl⟩ := List.exists_cons_of_length_pos hbs
    obtain rfl : a = b := by simpa using htake
    simpa [trail, grade_eq_grade_iff] using htype
  | succ d ih =>
    rcases as with - | ⟨a, - | ⟨a', as⟩⟩
    · simp at has
    · simp at has
    rcases bs with - | ⟨b, - | ⟨b', bs⟩⟩
    · simp at hbs
    · simp at hbs
    · obtain ⟨rfl, htail⟩ := List.cons.inj
        (show a :: (a' :: as).take (d + 1) = b :: (b' :: bs).take (d + 1) from htake)
      have hrest := ih (a' :: as) (b' :: bs) (by simpa using has) (by simpa using hbs) htail htype
      have hhead : grade a' as = grade b' bs := (List.cons.inj
        (show grade a' as :: (trail as).take d = grade b' bs :: (trail bs).take d from hrest)).1
      change grade a (a' :: as) :: (trail (a' :: as)).take (d + 1)
        = grade a (b' :: bs) :: (trail (b' :: bs)).take (d + 1)
      obtain ⟨rfl, htypes⟩ := grade_eq_grade_iff.mp hhead
      rw [hrest]
      congr 1
      rw [grade_eq_grade_iff, rises_cons_cons, rises_cons_cons, htypes]
      exact ⟨rfl, Iff.rfl⟩

theorem take_eq_of_take_trail_eq {d : Nat} {as bs : List Nat}
    (h : (trail as).take d = (trail bs).take d) : as.take d = bs.take d := by
  rw [← map_div_two_trail as, ← map_div_two_trail bs, ← List.map_take, ← List.map_take, h]

/-- A text ends falling. -/
theorem getLast?_trail {suffix : List Nat} (h : suffix ≠ []) :
    ∃ a, (trail suffix).getLast? = some (2 * a) := by
  induction suffix with
  | nil => exact absurd rfl h
  | cons a rest ih =>
    match rest with
    | [] => exact ⟨a, by rw [trail, trail, grade_of_not_rises (not_rises_singleton a)]; rfl⟩
    | b :: rest =>
      obtain ⟨c, hc⟩ := ih (by simp)
      refine ⟨c, ?_⟩
      rw [trail, List.getLast?_cons, hc, Option.getD_some]

theorem lt_append_singleton (l : List Nat) (g : Nat) : l < l ++ [g] := by
  induction l with
  | nil => exact List.nil_lt_cons _ _
  | cons a l ih => exact List.cons_lt_cons_iff.mpr (Or.inr ⟨rfl, ih⟩)

/-! ## Stretches of valleys -/

/-- The stretch of a position, without a tag. -/
def stretchAt (symbols : Array Nat) (i : Nat) : List Nat :=
  stretch untagged (symbols.toList.drop i)

namespace IsStretch

variable {symbols : Array Nat} {top k k' i i' j j' : Nat}

section One

variable (h : IsStretch symbols top k i j)

include h

/-- **A stretch that ends within the text ends with a valley.** -/
theorem stretchAt_of_lt (hlt : j < symbols.size) :
    (stretchAt symbols i).length = j + 1 - i
      ∧ (∃ a, (stretchAt symbols i).getLast? = some (2 * a + 1))
      ∧ ¬ Rises (symbols.toList.drop (j - 1)) ∧ Rises (symbols.toList.drop j) := by
  have hij := h.lt
  obtain ⟨e, rfl, -, hfalls, hrises⟩ := exists_of_mem_valleys (List.mem_of_getElem? (h.next hlt))
  have hlength : (stretchAt symbols i).length = e + 1 + 1 - i := by
    rw [stretchAt, h.grades, List.length_take, length_trail, List.length_drop, Array.length_toList]
    omega
  obtain ⟨a, ha⟩ := drop_eq_cons (show e + 1 < symbols.toList.length by simpa using hlt)
  refine ⟨hlength, ⟨a, ?_⟩, hfalls, hrises⟩
  rw [ha] at hrises
  rw [List.getLast?_eq_getElem?, hlength, stretchAt, h.grades,
    List.getElem?_take_of_lt (by omega), ← drop_trail, List.getElem?_drop,
    show i + (e + 1 + 1 - i - 1) = e + 1 by omega, getElem?_trail ha, grade_of_rises hrises]

/-- **A stretch that runs to the end of the text ends falling.** -/
theorem stretchAt_of_eq (heq : j = symbols.size) :
    stretchAt symbols i = trail (symbols.toList.drop i)
      ∧ ∃ a, (stretchAt symbols i).getLast? = some (2 * a) := by
  have hij := h.lt
  have hwhole : stretchAt symbols i = trail (symbols.toList.drop i) := by
    rw [stretchAt, h.grades, List.take_of_length_le]
    rw [length_trail, List.length_drop, Array.length_toList]
    omega
  refine ⟨hwhole, ?_⟩
  obtain ⟨a, ha⟩ := drop_eq_cons (show i < symbols.toList.length by simp; omega)
  rw [hwhole]
  exact getLast?_trail (by rw [ha]; simp)

end One

section Two

variable (h : IsStretch symbols top k i j) (h' : IsStretch symbols top k' i' j')

include h h'

/-- Stretches with ends of different kinds differ. -/
theorem stretchAt_ne (hlt : j < symbols.size) (heq : j' = symbols.size) :
    stretchAt symbols i ≠ stretchAt symbols i' := by
  intro hsame
  obtain ⟨-, ⟨a, ha⟩, -⟩ := h.stretchAt_of_lt hlt
  obtain ⟨-, b, hb⟩ := h'.stretchAt_of_eq heq
  rw [hsame, hb] at ha
  have := Option.some.inj ha
  omega

/-- **Stretches of the same extent within the text are compared by their symbols.** -/
theorem stretchAt_eq_iff (hlt : j < symbols.size) (hlt' : j' < symbols.size)
    (hextent : j - i = j' - i') :
    stretchAt symbols i = stretchAt symbols i'
      ↔ (symbols.toList.drop i).take (j - i + 1) = (symbols.toList.drop i').take (j - i + 1) := by
  have hij := h.lt
  have hij' := h'.lt
  obtain ⟨-, -, -, hrises⟩ := h.stretchAt_of_lt hlt
  obtain ⟨-, -, -, hrises'⟩ := h'.stretchAt_of_lt hlt'
  rw [stretchAt, stretchAt, h.grades, h'.grades, show j + 1 - i = j - i + 1 by omega,
    show j' + 1 - i' = j - i + 1 by omega]
  refine ⟨take_eq_of_take_trail_eq, fun hsymbols => take_trail_eq _ _ ?_ ?_ hsymbols ?_⟩
  · rw [List.length_drop, Array.length_toList]
    omega
  · rw [List.length_drop, Array.length_toList]
    omega
  · rw [List.drop_drop, List.drop_drop, show i + (j - i) = j by omega,
      show i' + (j - i) = j' by omega]
    exact iff_of_true hrises hrises'

/-- **A stretch that runs to the end of the text precedes** one of the same extent and the same
symbols before its last one. -/
theorem stretchAt_lt_of_take_eq (hlt : j < symbols.size) (heq : j' = symbols.size)
    (hextent : j - i = j' - i')
    (hsymbols : (symbols.toList.drop i).take (j - i) = (symbols.toList.drop i').take (j - i)) :
    stretchAt symbols i' < stretchAt symbols i := by
  have hij := h.lt
  have hij' := h'.lt
  obtain ⟨-, -, hfalls, -⟩ := h.stretchAt_of_lt hlt
  obtain ⟨hwhole, -⟩ := h'.stretchAt_of_eq heq
  have hlastfalls : ¬ Rises (symbols.toList.drop (symbols.size - 1)) := not_rises_last (by omega)
  have hlength : ∀ {i : Nat}, (symbols.toList.drop i).length = symbols.size - i := fun {i} => by
    rw [List.length_drop, Array.length_toList]
  have htypes : Rises ((symbols.toList.drop i).drop (j - i - 1))
      ↔ Rises ((symbols.toList.drop i').drop (j - i - 1)) := by
    rw [List.drop_drop, List.drop_drop, show i + (j - i - 1) = j - 1 by omega,
      show i' + (j - i - 1) = symbols.size - 1 by omega]
    exact iff_of_false hfalls hlastfalls
  have htrail := take_trail_eq (d := j - i - 1) _ _ (by rw [hlength]; omega)
    (by rw [hlength]; omega) (by rwa [show j - i - 1 + 1 = j - i by omega]) htypes
  rw [show j - i - 1 + 1 = j - i by omega] at htrail
  have hroom : j - i < (trail (symbols.toList.drop i)).length := by
    rw [length_trail, hlength]
    omega
  rw [hwhole, stretchAt, h.grades, show j + 1 - i = j - i + 1 by omega,
    ← List.take_append_getElem hroom, htrail,
    List.take_of_length_le (by rw [length_trail, hlength]; omega)]
  exact lt_append_singleton _ _

/-- **The comparison of two valleys in ascending order** — it tells whether their stretches are
equal, and no symbol past the end is needed. -/
theorem sameStretch?_eq (hne : k ≠ k') (hle : ¬ stretchAt symbols i' < stretchAt symbols i) :
    (if j - i = j' - i' then sameStretch? symbols i i' j else some false)
      = some (decide (stretchAt symbols i = stretchAt symbols i')) := by
  have hij := h.lt
  have hij' := h'.lt
  have hend : i + (j - i) = j := by omega
  rcases Nat.eq_or_lt_of_le h.le_size with heq | hlt <;>
    rcases Nat.eq_or_lt_of_le h'.le_size with heq' | hlt'
  · exact absurd ((h.last heq).symm.trans (h'.last heq')) (by omega)
  · rw [decide_eq_false (h'.stretchAt_ne h hlt' heq).symm]
    split
    · have hsame : sameStretch? symbols i i' (i + (j - i)) = some false :=
        sameStretch?_of_left_end (by omega) (by omega)
      rwa [hend] at hsame
    · rfl
  · rw [decide_eq_false (h.stretchAt_ne h' hlt heq')]
    split
    · next hextent =>
      have hsame : (symbols.toList.drop i).take (j - i) ≠ (symbols.toList.drop i').take (j - i) →
          sameStretch? symbols i i' (i + (j - i)) = some false :=
        sameStretch?_of_right_end (by omega) (by omega)
      exact (hend ▸ hsame) fun hsymbols =>
        hle (h.stretchAt_lt_of_take_eq h' hlt heq' hextent hsymbols)
    · rfl
  · split
    · next hextent =>
      have hsame : sameStretch? symbols i i' (i + (j - i))
          = some (decide ((symbols.toList.drop i).take (j - i + 1)
            = (symbols.toList.drop i').take (j - i + 1))) :=
        sameStretch?_of_lt (by omega) (by omega)
      rw [hend] at hsame
      rw [hsame, decide_eq_decide.mpr (h.stretchAt_eq_iff h' hlt hlt' hextent)]
    · next hextent =>
      refine (congrArg some (decide_eq_false fun hsame => hextent ?_)).symm
      have hlength := (h.stretchAt_of_lt hlt).1
      rw [hsame, (h'.stretchAt_of_lt hlt').1] at hlength
      omega

end Two

end IsStretch

end CodeClones.Suffix
