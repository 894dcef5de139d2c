import CodeClones.Proofs.Suffix.Array

/-!
# Proofs/Suffix/Marked — stretches spelled out, and what the reduced sequence says of them

The *marks* of a valley are the symbols and types from it to the next valley, or to a mark below all
others past the end of the text.  They compare as the stretches do by which valleys are named
(`marks_lt_iff`): two stretches that end within the text end alike, and the one that runs to the end
of the text precedes whatever continues it, with or without a least mark at its end.  So the names
of the valleys compare as their marks do, and the order of the names sorts the valleys
(`reduction_sorts_valleys`).
-/

namespace CodeClones.Suffix

/-! ## Marks -/

/-- **The mark of a position** — its symbol, then its type, falling before rising; past the end of
the text stands a mark below all others. -/
def Layout.mark (layout : Layout) (i : Nat) : WithBot (Nat ×ₗ Bool) :=
  match layout.symbols[i]?, layout.rises[i]? with
  | some symbol, some rises => ↑(toLex (symbol, rises))
  | _, _ => ⊥

/-- The next valley after a position, or the end of the text. -/
def Layout.nextValley (layout : Layout) (i : Nat) : Nat :=
  ((valleys layout.rises).find? fun j => decide (i < j)).getD layout.symbols.size

/-- **The marks of a stretch** — from a position to the next valley, both included. -/
def Layout.marks (layout : Layout) (i : Nat) : List (WithBot (Nat ×ₗ Bool)) :=
  (List.range' i (layout.nextValley i + 1 - i)).map layout.mark

/-- What a grade says: the symbol and the type. -/
def markOfGrade (g : Nat) : WithBot (Nat ×ₗ Bool) :=
  ↑(toLex (g / 2, decide (g % 2 = 1)))

/-- **Marks are in the order of the grades.** -/
theorem strictMono_markOfGrade : StrictMono markOfGrade := by
  intro g g' hlt
  rw [markOfGrade, markOfGrade, WithBot.coe_lt_coe, Prod.Lex.toLex_lt_toLex, Bool.lt_iff,
    decide_eq_false_iff_not, decide_eq_true_iff]
  omega

theorem bot_not_mem_map_markOfGrade (grades : List Nat) : ⊥ ∉ grades.map markOfGrade := by
  rw [List.mem_map]
  rintro ⟨g, -, h⟩
  exact WithBot.coe_ne_bot h

theorem map_markOfGrade_lt_iff {grades grades' : List Nat} :
    grades.map markOfGrade < grades'.map markOfGrade ↔ grades < grades' :=
  Order.map_lt_map_iff (fun _ _ _ _ => strictMono_markOfGrade.lt_iff_lt)
    fun _ _ _ _ => strictMono_markOfGrade.injective.eq_iff

variable {symbols : Array Nat} {top : Nat}

/-- **The mark of a position within the text.** -/
theorem mark_eq {a i : Nat} {rest : List Nat} (h : symbols.toList.drop i = a :: rest) :
    (Layout.ofSymbols symbols top).mark i = markOfGrade (grade a rest) := by
  have hi : i < symbols.size := by
    by_contra hge
    rw [List.drop_eq_nil_of_le (by simpa using hge)] at h
    exact absurd h (by simp)
  rw [Layout.mark, getElem?_symbols h, getElem?_rises hi, h, markOfGrade, grade_div_two]
  by_cases hrises : Rises (a :: rest)
  · simp [grade_of_rises hrises, hrises, Nat.add_mod]
  · simp [grade_of_not_rises hrises, hrises]

theorem mark_size : (Layout.ofSymbols symbols top).mark symbols.size = ⊥ := by
  rw [Layout.mark, show (Layout.ofSymbols symbols top).symbols = symbols from rfl,
    Array.getElem?_eq_none (Nat.le_refl _)]

/-- The marks of some positions within the text are those of their grades. -/
theorem map_mark_range' {i count : Nat} (h : i + count ≤ symbols.size) :
    (List.range' i count).map (Layout.ofSymbols symbols top).mark
      = ((trail (symbols.toList.drop i)).take count).map markOfGrade := by
  induction count generalizing i with
  | zero => rw [List.take_zero]; rfl
  | succ count ih =>
    obtain ⟨a, ha⟩ := drop_eq_cons (show i < symbols.toList.length by simpa using by omega)
    rw [List.range'_succ, List.map_cons, ih (by omega), mark_eq ha, ha, trail, List.take_succ_cons,
      List.map_cons]

/-! ## The marks of valleys -/

/-- In an ascending list the first entry above another one is the next. -/
theorem find?_lt_eq_getElem?_succ {l : List Nat} (hl : l.Pairwise (· < ·)) {k : Nat}
    (hk : k < l.length) : (l.find? fun j => decide (l[k] < j)) = l[k + 1]? := by
  have habove : ∀ {p : Nat} (hp : p < l.length), l[k] < l[p] ↔ k < p := fun {p} hp =>
    hl.sortedLT.getElem_lt_getElem_iff
  by_cases hnext : k + 1 < l.length
  · rw [List.getElem?_eq_getElem hnext, List.find?_eq_some_iff_getElem]
    refine ⟨decide_eq_true ((habove hnext).mpr k.lt_succ_self), k + 1, hnext, rfl, fun p hp => ?_⟩
    simpa [habove] using Nat.le_of_lt_succ hp
  · rw [List.getElem?_eq_none (Nat.le_of_not_lt hnext), List.find?_eq_none]
    intro j hj
    obtain ⟨p, hp, rfl⟩ := List.getElem_of_mem hj
    simpa [habove] using by omega

section Valleys

variable {k i j i' j' : Nat}

namespace IsStretch

variable (h : IsStretch symbols top k i j)

include h

theorem nextValley_eq : (Layout.ofSymbols symbols top).nextValley i = j := by
  obtain ⟨hk, hi⟩ := List.getElem?_eq_some_iff.mp h.valley
  rw [Layout.nextValley, ← hi, find?_lt_eq_getElem?_succ (sorted_valleys _) hk, ← h.ends,
    stretchEnd, List.getElem?_toArray]
  rfl

/-- **The marks of a stretch that ends within the text** are those of its grades. -/
theorem marks_of_lt (hlt : j < symbols.size) :
    (Layout.ofSymbols symbols top).marks i = (stretchAt symbols i).map markOfGrade := by
  have hij := h.lt
  rw [Layout.marks, h.nextValley_eq, map_mark_range' (by omega), stretchAt, h.grades]

/-- **The marks of a stretch that runs to the end of the text** go on with the least one. -/
theorem marks_of_eq (heq : j = symbols.size) :
    (Layout.ofSymbols symbols top).marks i = (stretchAt symbols i).map markOfGrade ++ [⊥] := by
  have hij := h.lt
  obtain ⟨hwhole, -⟩ := h.stretchAt_of_eq heq
  have hend : i + (symbols.size - i) = symbols.size := by omega
  rw [Layout.marks, h.nextValley_eq, heq, Nat.sub_add_comm (by omega), List.range'_1_concat,
    List.map_append, map_mark_range' hend.le, hend, List.map_singleton, mark_size, hwhole,
    List.take_of_length_le (by simp)]

end IsStretch

/-- **Marks compare as stretches do.** -/
theorem marks_lt_iff (hi : i ∈ valleys (Layout.ofSymbols symbols top).rises)
    (hi' : i' ∈ valleys (Layout.ofSymbols symbols top).rises) :
    (Layout.ofSymbols symbols top).marks i < (Layout.ofSymbols symbols top).marks i'
      ↔ stretchAt symbols i < stretchAt symbols i' := by
  obtain ⟨k, hvalley⟩ := List.mem_iff_getElem?.mp hi
  obtain ⟨k', hvalley'⟩ := List.mem_iff_getElem?.mp hi'
  have h := isStretch_of_valley hvalley
  have h' := isStretch_of_valley hvalley'
  rcases Nat.lt_or_eq_of_le h.le_size with hlt | heq <;>
    rcases Nat.lt_or_eq_of_le h'.le_size with hlt' | heq'
  · rw [h.marks_of_lt hlt, h'.marks_of_lt hlt', map_markOfGrade_lt_iff]
  · -- the one on the right runs to the end, so the stretches differ
    rw [h.marks_of_lt hlt, h'.marks_of_eq heq',
      Order.lt_append_bot_iff (bot_not_mem_map_markOfGrade _), ← not_lt, map_markOfGrade_lt_iff,
      not_lt]
    exact (h.stretchAt_ne h' hlt heq').le_iff_lt
  · rw [h.marks_of_eq heq, h'.marks_of_lt hlt',
      Order.append_bot_lt_iff (bot_not_mem_map_markOfGrade _), map_markOfGrade_lt_iff]
  · -- only the last valley runs to the end
    obtain rfl : k = k' := Nat.succ.inj ((h.last heq).symm.trans (h'.last heq'))
    obtain rfl : i = i' := Option.some.inj (hvalley.symm.trans hvalley')
    exact iff_of_false (lt_irrefl _) (lt_irrefl _)

theorem marks_le_iff (hi : i ∈ valleys (Layout.ofSymbols symbols top).rises)
    (hi' : i' ∈ valleys (Layout.ofSymbols symbols top).rises) :
    (Layout.ofSymbols symbols top).marks i ≤ (Layout.ofSymbols symbols top).marks i'
      ↔ ¬ stretchAt symbols i' < stretchAt symbols i := by
  rw [← marks_lt_iff hi' hi, not_lt]

/-! ## Names -/

/-- **Names compare as marks do.** -/
theorem Named.lt_iff_marks_lt {done : List Nat} {naming : Naming}
    (hnamed : Named symbols top done naming) {x l y : Nat}
    (hi : HasName symbols top done naming.names k i x)
    (hj : HasName symbols top done naming.names l j y) :
    x < y ↔ (Layout.ofSymbols symbols top).marks i < (Layout.ofSymbols symbols top).marks j := by
  rw [hnamed.lt_iff hi hj,
    marks_lt_iff (List.mem_of_getElem? hi.valley) (List.mem_of_getElem? hj.valley)]

/-- **Equal names are given to equal marks** and to no others. -/
theorem Named.eq_iff_marks_eq {done : List Nat} {naming : Naming}
    (hnamed : Named symbols top done naming) {x l y : Nat}
    (hi : HasName symbols top done naming.names k i x)
    (hj : HasName symbols top done naming.names l j y) :
    x = y ↔ (Layout.ofSymbols symbols top).marks i = (Layout.ofSymbols symbols top).marks j := by
  rw [le_antisymm_iff, le_antisymm_iff, ← not_lt, ← not_lt, ← not_lt, ← not_lt,
    hnamed.lt_iff_marks_lt hi hj, hnamed.lt_iff_marks_lt hj hi]

end Valleys

/-! ## The reduced sequence -/

/-- **The reduced sequence sorts the valleys.**

In a sequence that is not sorted directly and has a valley, the first round lists the valleys in the
order of their marks.  Naming them reads no symbol past the end, and there are at most half as many
valleys as symbols.  The names fill `0, …, topName`, fewer than there are valleys, and compare as
the marks do.  So the reduced sequence can be sorted in the same way; its sorted order, read as an
order of valleys, is that of their suffixes, and it is what the last round starts from. -/
theorem reduction_sorts_valleys (symbols : Array Nat) (top : Nat)
    (hlong : directSize ≤ symbols.size) (htop : ∀ a ∈ symbols.toList, a ≤ top)
    (hvalleys : valleys (Layout.ofSymbols symbols top).rises ≠ []) :
    let layout := Layout.ofSymbols symbols top
    let text := valleys layout.rises
    ∃ rough, induce? layout text = some rough
      ∧ (rough.toList.filter (isValley layout.rises)).Perm text
      ∧ ((rough.toList.filter (isValley layout.rises)).Pairwise fun i j =>
        layout.marks i ≤ layout.marks j)
      ∧ ∃ (reduced : Array Nat) (topName : Nat),
        reduce? symbols text.toArray (placesIn symbols.size text)
          (rough.toList.filter (isValley layout.rises)) = some (reduced, topName)
        ∧ reduced.size = text.length ∧ 2 * text.length ≤ symbols.size
        ∧ (∀ name ∈ reduced.toList, name ≤ topName) ∧ topName < text.length
        ∧ (∀ k i x l j y : Nat, text[k]? = some i → reduced[k]? = some x →
          text[l]? = some j → reduced[l]? = some y →
            (x = y ↔ layout.marks i = layout.marks j) ∧ (x < y ↔ layout.marks i < layout.marks j))
        ∧ ∃ order sorted, sortSuffixes? reduced topName = some order
          ∧ Sorted (fun a b => decide (a < b)) reduced order
          ∧ order.toList.mapM (fun k => text.toArray[k]?) = some sorted
          ∧ sorted.Perm text
          ∧ (sorted.Pairwise fun i j => symbols.toList.drop i < symbols.toList.drop j)
          ∧ sortSuffixes? symbols top = induce? layout sorted := by
  intro layout text
  have hpos : 0 < symbols.size := Nat.lt_of_lt_of_le (by decide) hlong
  obtain ⟨rough, hrough, hperm, hstretches⟩ := exists_stretches htop hpos
  obtain ⟨naming, hreduce, hnamed⟩ := exists_reduce? hperm
    (fun h => hvalleys (List.perm_nil.mp (h ▸ hperm).symm)) hstretches
  have hhalf : 2 * text.length ≤ symbols.size := two_mul_length_valleys_le
  obtain ⟨order, horder, hsorted⟩ := exists_sortSuffixes? hnamed.name_le
  obtain ⟨sorted, hmap, hsortedperm, hsuffixes⟩ := exists_valleys_sorted hnamed hsorted
  have hshorter : naming.names.size < symbols.size := by
    have hsize : naming.names.size = text.length := hnamed.size_names
    have hsome : 0 < text.length := List.length_pos_iff.mpr hvalleys
    omega
  have hmarks : (rough.toList.filter (isValley layout.rises)).Pairwise fun i j =>
      layout.marks i ≤ layout.marks j :=
    hstretches.imp_of_mem fun {i j} hi hj hle =>
      (marks_le_iff (hperm.mem_iff.mp hi) (hperm.mem_iff.mp hj)).mpr hle
  refine ⟨rough, hrough, hperm, hmarks, naming.names, naming.name, hreduce, hnamed.size_names,
    hhalf, hnamed.name_le, hnamed.name_lt, fun k i x l j y hk hx hl hy => ?_, order, sorted, horder,
    hsorted, hmap, hsortedperm, hsuffixes,
    sortSuffixes?_eq_induce? hlong hvalleys hrough hreduce hshorter horder hmap⟩
  have hi : HasName symbols top text naming.names k i x := ⟨hk, List.mem_of_getElem? hk, hx⟩
  have hj : HasName symbols top text naming.names l j y := ⟨hl, List.mem_of_getElem? hl, hy⟩
  exact ⟨hnamed.eq_iff_marks_eq hi hj, hnamed.lt_iff_marks_lt hi hj⟩

/-- Two valleys whose stretches differ past their first symbols: the second one runs to the end. -/
theorem reduction_sorts_valleys_of_two :
    let symbols : Array Nat := #[1, 0, 1, 0, 1] ++ Array.replicate 27 0
    let layout := Layout.ofSymbols symbols 1
    directSize ≤ symbols.size ∧ (∀ a ∈ symbols.toList, a ≤ 1) ∧ valleys layout.rises ≠ []
      ∧ valleys layout.rises = [1, 3] ∧ layout.marks 3 < layout.marks 1
      ∧ ∃ rough, induce? layout [1, 3] = some rough
        ∧ reduce? symbols #[1, 3] (placesIn 32 [1, 3])
          (rough.toList.filter (isValley layout.rises)) = some (#[1, 0], 1)
        ∧ sortSuffixes? symbols 1 = induce? layout [3, 1] := by
  intro symbols layout
  have hlong : directSize ≤ symbols.size := by decide
  have htop : ∀ a ∈ symbols.toList, a ≤ 1 := by decide
  have hvalleys : valleys layout.rises = [1, 3] := by decide +kernel
  have hmarks : layout.marks 3 < layout.marks 1 := by decide +kernel
  obtain ⟨rough, hrough, -, -, reduced, topName, hreduce, hsize, -, hle, hlt, hnames, order, sorted,
    -, -, -, hperm, hsuffixes, hresult⟩ :=
    reduction_sorts_valleys symbols 1 hlong htop (by rw [hvalleys]; simp)
  rw [hvalleys] at hrough hreduce hsize hlt hnames hperm
  obtain ⟨x, y, rfl⟩ : ∃ x y, reduced = #[x, y] := by
    obtain ⟨x, y, h⟩ := List.length_eq_two.mp (Array.length_toList.trans hsize)
    exact ⟨x, y, Array.toList_inj.mp h⟩
  have hyx : y < x := (hnames 1 3 y 0 1 x rfl rfl rfl rfl).2.mpr hmarks
  have hx : x ≤ topName := hle x (by simp)
  obtain ⟨rfl, rfl, rfl⟩ : x = 1 ∧ y = 0 ∧ topName = 1 := by
    rw [List.length_cons, List.length_singleton] at hlt
    omega
  have hsorted : sorted = [3, 1] := by
    refine List.Perm.eq_of_pairwise (fun i j _ _ hij hji => absurd hji (lt_asymm hij)) hsuffixes ?_
      (hperm.trans (List.Perm.swap 3 1 []))
    decide
  refine ⟨hlong, htop, by rw [hvalleys]; simp, hvalleys, hmarks, rough, hrough, hreduce, ?_⟩
  rw [hresult, hsorted]

end CodeClones.Suffix
