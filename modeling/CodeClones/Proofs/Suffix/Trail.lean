import CodeClones.Suffix.Layout
import Mathlib

/-!
# Proofs/Suffix/Trail — symbols and types as one sequence of numbers

A position rises exactly if its suffix precedes the next one (`getElem?_rising`), so the type of a
position is a property of its suffix.  The *grade* of a suffix packs its first symbol and its type
into one number, falling before rising, and the *trail* lists the grades of a suffix and of all
shorter ones.  Trails are in the same order as the suffixes themselves (`trail_lt_trail_iff`): on
equal symbols a falling suffix precedes a rising one.
-/

namespace CodeClones.Suffix

/-- Does a suffix precede what is left of it after its first symbol? -/
def Rises (suffix : List Nat) : Prop := suffix < suffix.tail

instance (suffix : List Nat) : Decidable (Rises suffix) :=
  inferInstanceAs (Decidable (suffix < suffix.tail))

theorem rises_cons {a : Nat} {rest : List Nat} : Rises (a :: rest) ↔ a :: rest < rest := Iff.rfl

theorem not_rises_singleton (a : Nat) : ¬ Rises [a] := List.not_lt_nil _

/-- **The next differing symbol decides the type.** -/
theorem rises_cons_cons {a b : Nat} {rest : List Nat} :
    Rises (a :: b :: rest) ↔ a < b ∨ a = b ∧ Rises (b :: rest) := by
  rw [rises_cons, List.cons_lt_cons_iff]
  refine or_congr Iff.rfl ⟨?_, ?_⟩
  · rintro ⟨rfl, h⟩
    exact ⟨rfl, h⟩
  · rintro ⟨rfl, h⟩
    exact ⟨rfl, h⟩

/-! ## The computed types -/

/-- The scan that computes the types keeps the symbols. -/
theorem map_fst_foldr_riseStep (symbols : List Nat) :
    (symbols.foldr riseStep []).map Prod.fst = symbols := by
  induction symbols with
  | nil => rfl
  | cons a rest ih =>
    rw [List.foldr_cons]
    cases h : rest.foldr riseStep [] with
    | nil => simp_all [riseStep]
    | cons entry later => simp_all [riseStep]

/-- **The type of the first position, computed** — it says whether the suffix rises. -/
theorem rising_cons (a : Nat) (rest : List Nat) :
    rising (a :: rest) = decide (Rises (a :: rest)) :: rising rest := by
  induction rest generalizing a with
  | nil => simp [rising, riseStep, not_rises_singleton]
  | cons b rest ih =>
    have hb := ih b
    have hsymbols := map_fst_foldr_riseStep (b :: rest)
    rw [rising] at hb ⊢
    rw [List.foldr_cons]
    cases h : (b :: rest).foldr riseStep [] with
    | nil => simp [h] at hsymbols
    | cons entry later =>
      obtain ⟨b', r⟩ := entry
      obtain rfl : b' = b := by simpa [h] using congrArg List.head? hsymbols
      have hr : r = decide (Rises (b' :: rest)) := by simpa [h] using congrArg List.head? hb
      have hlater : (((b', r) :: later).map Prod.snd) = rising (b' :: rest) := by rw [rising, h]
      simp only [riseStep, List.map_cons] at hlater ⊢
      rw [hlater]
      congr 1
      rw [Bool.eq_iff_iff, decide_eq_true_iff, rises_cons_cons, hr]
      split
      · next heq => simp [heq]
      · next hne => simp [hne]

theorem length_rising (symbols : List Nat) : (rising symbols).length = symbols.length := by
  induction symbols with
  | nil => rfl
  | cons a rest ih => rw [rising_cons, List.length_cons, List.length_cons, ih]

/-- **A position rises exactly if its suffix precedes the next one.** -/
theorem getElem?_rising {symbols : List Nat} {i : Nat} (hi : i < symbols.length) :
    (rising symbols)[i]? = some (decide (Rises (symbols.drop i))) := by
  induction symbols generalizing i with
  | nil => simp at hi
  | cons a rest ih =>
    rw [rising_cons]
    cases i with
    | zero => rfl
    | succ i => simpa using ih (Nat.lt_of_succ_lt_succ hi)

/-! ## Grades -/

/-- **The grade of a suffix** — twice its first symbol, and one more if it rises. -/
def grade (a : Nat) (rest : List Nat) : Nat :=
  2 * a + if Rises (a :: rest) then 1 else 0

theorem grade_of_rises {a : Nat} {rest : List Nat} (h : Rises (a :: rest)) :
    grade a rest = 2 * a + 1 := by rw [grade, if_pos h]

theorem grade_of_not_rises {a : Nat} {rest : List Nat} (h : ¬ Rises (a :: rest)) :
    grade a rest = 2 * a := by rw [grade, if_neg h, Nat.add_zero]

theorem grade_div_two (a : Nat) (rest : List Nat) : grade a rest / 2 = a := by
  rw [grade]
  split <;> omega

/-- A grade determines the symbol and the type. -/
theorem grade_eq_grade_iff {a b : Nat} {as bs : List Nat} :
    grade a as = grade b bs ↔ a = b ∧ (Rises (a :: as) ↔ Rises (b :: bs)) := by
  by_cases ha : Rises (a :: as) <;> by_cases hb : Rises (b :: bs) <;> simp [grade, ha, hb] <;> omega

/-- The grades of a suffix and of all shorter ones. -/
def trail : List Nat → List Nat
  | [] => []
  | a :: rest => grade a rest :: trail rest

@[simp] theorem length_trail (symbols : List Nat) : (trail symbols).length = symbols.length := by
  induction symbols with
  | nil => rfl
  | cons a rest ih => rw [trail, List.length_cons, List.length_cons, ih]

theorem drop_trail (symbols : List Nat) (i : Nat) :
    (trail symbols).drop i = trail (symbols.drop i) := by
  induction symbols generalizing i with
  | nil => simp [trail]
  | cons a rest ih =>
    cases i with
    | zero => rfl
    | succ i => simpa [trail] using ih i

theorem map_div_two_trail (symbols : List Nat) : (trail symbols).map (· / 2) = symbols := by
  induction symbols with
  | nil => rfl
  | cons a rest ih => rw [trail, List.map_cons, ih, grade_div_two]

/-! ## Trails are in the order of the suffixes -/

/-- What rises ahead of a suffix rises ahead of every later one. -/
theorem Rises.mono {a : Nat} {as bs : List Nat} (h : Rises (a :: as)) (hlt : as < bs) :
    Rises (a :: bs) := by
  induction as generalizing bs with
  | nil => exact absurd h (not_rises_singleton a)
  | cons c as ih =>
    cases bs with
    | nil => simp at hlt
    | cons d bs =>
      rw [rises_cons_cons] at h ⊢
      rcases List.cons_lt_cons_iff.mp hlt with hcd | ⟨rfl, htail⟩
      · exact Or.inl (by rcases h with h | ⟨rfl, -⟩ <;> omega)
      · rcases h with h | ⟨rfl, hrises⟩
        · exact Or.inl h
        · exact Or.inr ⟨rfl, ih hrises htail⟩

/-- **On equal symbols a falling suffix precedes a rising one.** -/
theorem trail_lt_trail {as bs : List Nat} (h : as < bs) : trail as < trail bs := by
  induction as generalizing bs with
  | nil =>
    cases bs with
    | nil => simp at h
    | cons b bs => exact List.nil_lt_cons _ _
  | cons a as ih =>
    cases bs with
    | nil => simp at h
    | cons b bs =>
      rw [trail, trail, List.cons_lt_cons_iff]
      rcases List.cons_lt_cons_iff.mp h with hab | ⟨rfl, htail⟩
      · refine Or.inl ?_
        rw [grade, grade]
        split <;> split <;> omega
      · by_cases ha : Rises (a :: as)
        · have hb : Rises (a :: bs) := ha.mono htail
          exact Or.inr ⟨by rw [grade_of_rises ha, grade_of_rises hb], ih htail⟩
        · by_cases hb : Rises (a :: bs)
          · exact Or.inl (by rw [grade_of_not_rises ha, grade_of_rises hb]; omega)
          · exact Or.inr ⟨by rw [grade_of_not_rises ha, grade_of_not_rises hb], ih htail⟩

/-- **Trails are in the order of the suffixes.** -/
theorem trail_lt_trail_iff {as bs : List Nat} : trail as < trail bs ↔ as < bs := by
  refine ⟨fun h => ?_, trail_lt_trail⟩
  rcases lt_trichotomy as bs with hlt | rfl | hgt
  · exact hlt
  · exact absurd h (lt_irrefl _)
  · exact absurd h (lt_asymm (trail_lt_trail hgt))

end CodeClones.Suffix
