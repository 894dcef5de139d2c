import CodeClones.Proofs.Suffix.Courses

/-!
# Proofs/Suffix/Bucket — where the buckets start

The tables of a layout hold the first slots of segments: the bucket of a symbol starts with the
segment of its falling positions and goes on with that of its rising ones.
-/

namespace CodeClones.Suffix

/-! ## Counting symbols -/

theorem getElem?_foldl_modify (symbols : List Nat) (counts : Array Nat) (c : Nat) :
    (symbols.foldl (fun counts symbol => counts.modify symbol (· + 1)) counts)[c]?
      = counts[c]?.map (· + symbols.count c) := by
  induction symbols generalizing counts with
  | nil => simp
  | cons a symbols ih =>
    rw [List.foldl_cons, ih, Array.getElem?_modify, List.count_cons]
    by_cases h : a = c
    · rw [if_pos h, if_pos (beq_iff_eq.mpr h), Option.map_map]
      exact congrArg (fun f => counts[c]?.map f) (funext fun x => by
        simp only [Function.comp_apply]
        omega)
    · rw [if_neg h, if_neg (by simpa using h), Nat.add_zero]

theorem getElem?_tally {top c : Nat} (symbols : List Nat) (hc : c ≤ top) :
    (tally top symbols)[c]? = some (symbols.count c) := by
  rw [tally, Array.getElem?_toList, getElem?_foldl_modify, Array.getElem?_replicate,
    if_pos (by omega), Option.map_some, Nat.zero_add]

theorem length_tally (top : Nat) (symbols : List Nat) : (tally top symbols).length = top + 1 := by
  rw [tally, Array.length_toList]
  suffices h : ∀ counts : Array Nat, (symbols.foldl
      (fun counts symbol => counts.modify symbol (· + 1)) counts).size = counts.size by
    rw [h, Array.size_replicate]
  induction symbols with
  | nil => exact fun _ => rfl
  | cons a symbols ih => exact fun counts => by rw [List.foldl_cons, ih, Array.size_modify]

/-- **A running total is the sum of the counts before it.** -/
theorem getElem?_startsFrom {counts : List Nat} {c : Nat} (total : Nat) (hc : c < counts.length) :
    (startsFrom total counts)[c]? = some (total + (counts.take c).sum) := by
  induction counts generalizing total c with
  | nil => simp at hc
  | cons count counts ih =>
    cases c with
    | zero => rfl
    | succ c =>
      rw [startsFrom, List.getElem?_cons_succ, ih _ (Nat.lt_of_succ_lt_succ hc),
        List.take_succ_cons,
        List.sum_cons, Nat.add_assoc]

/-- The symbols below `c` are those tallied before it. -/
theorem sum_take_tally {top c : Nat} (symbols : List Nat) (hc : c ≤ top + 1) :
    ((tally top symbols).take c).sum = symbols.countP fun a => decide (a < c) := by
  induction c with
  | zero => simp
  | succ c ih =>
    have hlt : c < (tally top symbols).length := by rw [length_tally]; omega
    have hget : (tally top symbols)[c] = symbols.count c :=
      Option.some.inj ((List.getElem?_eq_getElem hlt).symm.trans
        (getElem?_tally symbols (by omega)))
    rw [← List.take_append_getElem hlt, List.sum_append, ih (by omega), hget, List.sum_singleton,
      countP_lt_succ]

/-- Symbols below `c` are grades below `2 * c`. -/
theorem countP_lt_trail (text : List Nat) (c : Nat) :
    (text.countP fun a => decide (a < c)) = (trail text).countP fun g => decide (g < 2 * c) := by
  conv_lhs => rw [← map_div_two_trail text, List.countP_map]
  refine List.countP_congr fun g _ => ?_
  simp only [Function.comp_apply, decide_eq_true_eq]
  omega

/-- The falling positions with symbol `c` are those of grade `2 * c`. -/
theorem count_falling (text : List Nat) (c : Nat) :
    (((text.zip (rising text)).filter fun entry => !entry.2).map Prod.fst).count c
      = (trail text).count (2 * c) := by
  induction text with
  | nil => rfl
  | cons a rest ih =>
    rw [rising_cons, List.zip_cons_cons, trail, List.count_cons, ← ih]
    by_cases ha : Rises (a :: rest)
    · rw [grade_of_rises ha, List.filter_cons_of_neg (by simpa using ha),
        if_neg (by simp only [beq_iff_eq]; omega), Nat.add_zero]
    · rw [grade_of_not_rises ha, List.filter_cons_of_pos (by simpa using ha), List.map_cons,
        List.count_cons]
      congr 1
      by_cases h : a = c
      · rw [if_pos (beq_iff_eq.mpr h), if_pos (beq_iff_eq.mpr (by omega))]
      · rw [if_neg (by simpa using h), if_neg (by simp only [beq_iff_eq]; omega)]

/-! ## The tables of a layout -/

variable {symbols : Array Nat} {top c : Nat} {tag : List Nat → List Nat}

/-- **A bucket starts with its falling positions.** -/
theorem getElem?_heads (up : Bool) (hc : c ≤ top) :
    (Layout.ofSymbols symbols top).heads[c]?
      = some ((Course.forward tag symbols.toList up).start (2 * c)) := by
  rw [Layout.ofSymbols, List.getElem?_toArray,
    getElem?_startsFrom 0 (by rw [length_tally]; omega), Nat.zero_add,
    sum_take_tally _ (by omega), countP_lt_trail]
  rfl

/-- **Its rising positions follow.** -/
theorem getElem?_middles (up : Bool) (hc : c ≤ top) :
    (Layout.ofSymbols symbols top).middles[c]?
      = some ((Course.forward tag symbols.toList up).start (2 * c + 1)) := by
  have hheads : (Layout.ofSymbols symbols top).heads[c]?
      = some ((Course.forward tag symbols.toList up).start (2 * c)) := getElem?_heads up hc
  rw [Layout.ofSymbols, List.getElem?_toArray] at hheads
  rw [Layout.ofSymbols, List.getElem?_toArray, List.getElem?_zipWith, hheads,
    getElem?_tally _ hc, count_falling, Course.start_succ]
  rfl

/-- **Counted from the end, a segment starts where it ends counted from the front.** -/
theorem start_backward (tag : List Nat → List Nat) (htop : ∀ a ∈ symbols.toList, a ≤ top)
    (up : Bool) {g : Nat} (hg : g ≤ 2 * top + 2) :
    (Course.backward tag symbols.toList top htop).start (2 * top + 2 - g)
      + (Course.forward tag symbols.toList up).start g = symbols.size := by
  rw [Course.start, Course.start, Course.backward, Course.forward, List.countP_map]
  have hsplit := List.length_eq_countP_add_countP (fun h => decide (h < g))
    (l := trail symbols.toList)
  rw [length_trail, Array.length_toList] at hsplit
  rw [hsplit, Nat.add_comm]
  congr 1
  refine List.countP_congr fun h hh => ?_
  obtain ⟨a, ha, rest, rfl⟩ := mem_trail hh
  have := grade_le rest (htop a ha)
  simp only [Function.comp_apply, decide_eq_true_eq]
  omega

end CodeClones.Suffix
