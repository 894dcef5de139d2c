import CodeClones.Proofs.Order.Lexical
import CodeClones.Proofs.Order.Sorting
import CodeClones.Proofs.Suffix.Induced
import CodeClones.Proofs.Suffix.Reduction
import CodeClones.Suffix.Array

/-!
# Proofs/Suffix/Array — every path through the sorting of suffixes

The valleys in the order of the text, tagged by their positions, induce an order of the stretches
(`exists_stretches`); the reduced sequence, sorted by recursion, gives the order of the valleys
(`exists_valleys_sorted`); and sorted valleys, tagged by the trails that follow them, induce the
order of all suffixes (`exists_induce?_sorted`).  A sorted list of the valleys is all that the last
round is given (`induce?_of_ascending_valleys`).  The short cases are sorted by comparison.
-/

namespace CodeClones.Suffix

variable {symbols : Array Nat} {top : Nat}

/-! ## Sorted orders -/

theorem natBefore_iff {i j : Nat} :
    natBefore symbols i j = true ↔ symbols.toList.drop i < symbols.toList.drop j :=
  Order.lexLess_eq_true_iff (fun _ _ => decide_eq_true_iff) _ _

theorem sorted_of_drop_lt {order : Array Nat} (hperm : order.toList.Perm (List.range symbols.size))
    (hlt : order.toList.Pairwise fun i j => symbols.toList.drop i < symbols.toList.drop j) :
    Sorted (fun a b => decide (a < b)) symbols order :=
  ⟨hperm, hlt.imp natBefore_iff.mpr⟩

/-- **There is only one sorted order.** -/
theorem Sorted.unique {α : Type} [LinearOrder α] {text : Array α} {order other : Array Nat}
    (h : Sorted (fun a b => decide (a < b)) text order)
    (h' : Sorted (fun a b => decide (a < b)) text other) : order = other := by
  have hbefore : ∀ i j, before (fun a b => decide (a < b)) text i j = true
      ↔ text.toList.drop i < text.toList.drop j := fun i j =>
    Order.lexLess_eq_true_iff (fun _ _ => decide_eq_true_iff) _ _
  refine Array.toList_inj.mp (List.Perm.eq_of_pairwise (fun i j _ _ hij hji => ?_) h.ascending
    h'.ascending (h.complete.trans h'.complete.symm))
  exact absurd ((hbefore i j).mp hij) (lt_asymm ((hbefore j i).mp hji))

/-- Suffixes at different positions differ. -/
theorem drop_inj {α : Type} {text : List α} {i j : Nat} (hi : i < text.length)
    (hj : j < text.length) (h : text.drop i = text.drop j) : i = j := by
  have hlength := congrArg List.length h
  rw [List.length_drop, List.length_drop] at hlength
  omega

/-- **Sorting by comparison.** -/
theorem sorted_sortDirectly (symbols : Array Nat) :
    Sorted (fun a b => decide (a < b)) symbols (sortDirectly symbols) := by
  have hperm := List.mergeSort_perm (List.range symbols.size) fun i j => !natBefore symbols j i
  have hle : ∀ i j, (!natBefore symbols j i) = true
      ↔ symbols.toList.drop i ≤ symbols.toList.drop j := fun i j => by
    rw [Bool.not_eq_true', ← Bool.not_eq_true, natBefore_iff, not_lt]
  have hascending := Order.pairwise_mergeSort_key (symbols.toList.drop ·) hle
    (List.range symbols.size)
  refine sorted_of_drop_lt hperm ?_
  refine (hascending.and (hperm.nodup_iff.mpr List.nodup_range)).imp_of_mem ?_
  rintro i j hi hj ⟨hle, hne⟩
  rw [hperm.mem_iff, List.mem_range, ← Array.length_toList] at hi hj
  exact lt_of_le_of_ne hle fun h => hne (drop_inj hi hj h)

/-! ## Inducing the order of the stretches -/

theorem drop_lt_of_stretch_lt {i j : Nat}
    (h : stretch trail (symbols.toList.drop i) < stretch trail (symbols.toList.drop j)) :
    symbols.toList.drop i < symbols.toList.drop j := by
  rwa [stretch_trail, stretch_trail, trail_lt_trail_iff] at h

/-- The valleys in the order of the text, tagged by where they are. -/
theorem seeds_valleys (symbols : Array Nat) (top : Nat) :
    Seeds symbols top (fun rest => [symbols.size - rest.length])
      (valleys (Layout.ofSymbols symbols top).rises) where
  perm := List.Perm.refl _
  sorted := (sorted_valleys _).imp_of_mem fun {i j} hi hj hij _ => by
    have hi := (mem_valleys_iff.mp hi).1
    have hj := (mem_valleys_iff.mp hj).1
    rw [List.length_drop, List.length_drop, Array.length_toList, List.cons_lt_cons_iff]
    exact Or.inl (by omega)

/-- **The first round orders the valleys by their stretches.** -/
theorem exists_stretches (htop : ∀ a ∈ symbols.toList, a ≤ top) (hpos : 0 < symbols.size) :
    ∃ rough, induce? (Layout.ofSymbols symbols top)
        (valleys (Layout.ofSymbols symbols top).rises) = some rough
      ∧ (rough.toList.filter (isValley (Layout.ofSymbols symbols top).rises)).Perm
          (valleys (Layout.ofSymbols symbols top).rises)
      ∧ (rough.toList.filter (isValley (Layout.ofSymbols symbols top).rises)).Pairwise
          fun i j => ¬ stretchAt symbols j < stretchAt symbols i := by
  obtain ⟨rough, hrough, hperm, hsorted⟩ := exists_induce? htop hpos (seeds_valleys symbols top)
  refine ⟨rough, hrough, ?_, (hsorted.imp stretch_untagged_le).filter _⟩
  rw [valleys, size_rises]
  exact hperm.filter _

/-! ## Inducing the order of the suffixes -/

/-- Sorted valleys, tagged by the trails that follow them. -/
theorem seeds_of_sorted {seeds : List Nat}
    (hperm : seeds.Perm (valleys (Layout.ofSymbols symbols top).rises))
    (hsorted : seeds.Pairwise fun i j => symbols.toList.drop i < symbols.toList.drop j) :
    Seeds symbols top trail seeds where
  perm := hperm
  sorted := hsorted.imp_of_mem fun {i j} hi hj hij hgrade => by
    have hi := (mem_valleys_iff.mp (hperm.mem_iff.mp hi)).1
    have hj := (mem_valleys_iff.mp (hperm.mem_iff.mp hj)).1
    obtain ⟨a, ha⟩ := drop_eq_cons (show i < symbols.toList.length by simpa using hi)
    obtain ⟨b, hb⟩ := drop_eq_cons (show j < symbols.toList.length by simpa using hj)
    have hlt := trail_lt_trail hij
    rw [ha, hb, trail, trail, List.cons_lt_cons_iff] at hlt
    rw [getD_trail ha, getD_trail hb] at hgrade
    rcases hlt with hlt | ⟨-, hlt⟩
    · omega
    · exact hlt

/-- **The second round orders all suffixes.** -/
theorem exists_induce?_sorted (htop : ∀ a ∈ symbols.toList, a ≤ top) (hpos : 0 < symbols.size)
    {seeds : List Nat} (hperm : seeds.Perm (valleys (Layout.ofSymbols symbols top).rises))
    (hsorted : seeds.Pairwise fun i j => symbols.toList.drop i < symbols.toList.drop j) :
    ∃ order, induce? (Layout.ofSymbols symbols top) seeds = some order
      ∧ Sorted (fun a b => decide (a < b)) symbols order := by
  obtain ⟨order, horder, hall, hlt⟩ := exists_induce? htop hpos (seeds_of_sorted hperm hsorted)
  exact ⟨order, horder, sorted_of_drop_lt hall (hlt.imp drop_lt_of_stretch_lt)⟩

/-- **A valley is a suffix that precedes both of its neighbours.** -/
theorem mem_valleys_iff_precedes {i : Nat} : i ∈ valleys (Layout.ofSymbols symbols top).rises
    ↔ (0 < i ∧ i < symbols.size) ∧ symbols.toList.drop i < symbols.toList.drop (i - 1)
      ∧ symbols.toList.drop i < symbols.toList.drop (i + 1) := by
  rw [mem_valleys_iff]
  cases i with
  | zero => rw [not_isValley_zero]; simp
  | succ i =>
    rw [and_iff_right i.succ_pos]
    refine and_congr_right fun hi => ?_
    have hne : symbols.toList.drop (i + 1) ≠ symbols.toList.drop i := fun h => by
      have := drop_inj (by simpa using hi) (by simpa using Nat.lt_of_succ_lt hi) h
      omega
    rw [isValley_succ_iff hi, Rises, Rises, List.tail_drop, List.tail_drop, not_lt,
      Nat.add_sub_cancel, hne.le_iff_lt]

/-- **Sorted valleys sort everything.**

The suffixes that precede both of their neighbours, listed in ascending order, are all that the two
sweeps need: they stay within the arrays and fill every slot, and what they leave is the one sorted
order of all suffixes. -/
theorem induce?_of_ascending_valleys (symbols : Array Nat) (top : Nat) (seeds : List Nat)
    (hpos : 0 < symbols.size) (htop : ∀ a ∈ symbols.toList, a ≤ top)
    (hseeds : ∀ i, i ∈ seeds
      ↔ (0 < i ∧ i < symbols.size) ∧ symbols.toList.drop i < symbols.toList.drop (i - 1)
        ∧ symbols.toList.drop i < symbols.toList.drop (i + 1))
    (hascending : seeds.Pairwise fun i j => symbols.toList.drop i < symbols.toList.drop j) :
    ∃ order, induce? (Layout.ofSymbols symbols top) seeds = some order
      ∧ Sorted (fun a b => decide (a < b)) symbols order
      ∧ ∀ other, Sorted (fun a b => decide (a < b)) symbols other → other = order := by
  have hnodup : seeds.Nodup := hascending.imp fun hlt heq => absurd (heq ▸ hlt) (lt_irrefl _)
  have hperm : seeds.Perm (valleys (Layout.ofSymbols symbols top).rises) :=
    (List.perm_ext_iff_of_nodup hnodup (nodup_valleys _)).mpr fun i => by
      rw [hseeds, mem_valleys_iff_precedes]
  obtain ⟨order, horder, hsorted⟩ := exists_induce?_sorted htop hpos hperm hascending
  exact ⟨order, horder, hsorted, fun other hother => hother.unique hsorted⟩

/-- The two valleys of six symbols. -/
theorem induce?_of_two_valleys :
    let symbols : Array Nat := #[1, 0, 2, 0, 2, 0]
    let before := fun i j => symbols.toList.drop i < symbols.toList.drop j
    (∀ a ∈ symbols.toList, a ≤ 2)
      ∧ (∀ i, i ∈ [3, 1] ↔ (0 < i ∧ i < symbols.size) ∧ before i (i - 1) ∧ before i (i + 1))
      ∧ [3, 1].Pairwise before
      ∧ induce? (Layout.ofSymbols symbols 2) [3, 1] = some #[5, 3, 1, 0, 4, 2] := by
  intro symbols before
  have htop : ∀ a ∈ symbols.toList, a ≤ 2 := by decide
  have hseeds : ∀ i, i ∈ [3, 1]
      ↔ (0 < i ∧ i < symbols.size) ∧ before i (i - 1) ∧ before i (i + 1) := fun i => by
    by_cases hi : i < 6
    · interval_cases i <;> decide
    · refine iff_of_false (fun h => ?_) fun h => hi h.1.2
      simp at h
      omega
  have hascending : [3, 1].Pairwise before := by decide
  obtain ⟨order, horder, -, hunique⟩ :=
    induce?_of_ascending_valleys symbols 2 [3, 1] (by decide) htop hseeds hascending
  refine ⟨htop, hseeds, hascending, horder.trans (congrArg some (hunique _ ?_).symm)⟩
  exact sorted_of_drop_lt (by decide) (by decide)

/-! ## Sorting the valleys through the reduced sequence -/

/-- The last name bounds all names. -/
theorem Named.name_le {naming : Naming}
    (hnamed : Named symbols top (valleys (Layout.ofSymbols symbols top).rises) naming) :
    ∀ a ∈ naming.names.toList, a ≤ naming.name := by
  intro a ha
  obtain ⟨k, hk⟩ := List.mem_iff_getElem?.mp ha
  rw [Array.getElem?_toList] at hk
  have hlt := hnamed.size_names ▸ (Array.getElem?_eq_some_iff.mp hk).1
  exact hnamed.le_name ⟨List.getElem?_eq_getElem hlt, List.getElem_mem hlt, hk⟩

/-- **Valleys are at least two positions apart**, so the reduced sequence is at most half as
long. -/
theorem two_mul_length_valleys_le :
    2 * (valleys (Layout.ofSymbols symbols top).rises).length ≤ symbols.size := by
  have hnodup : (valleys (Layout.ofSymbols symbols top).rises
      ++ (valleys (Layout.ofSymbols symbols top).rises).map (· - 1)).Nodup := by
    refine List.nodup_append.mpr ⟨nodup_valleys _, (nodup_valleys _).map_on ?_, ?_⟩
    · intro i hi j hj hij
      obtain ⟨i, rfl, -⟩ := exists_of_mem_valleys hi
      obtain ⟨j, rfl, -⟩ := exists_of_mem_valleys hj
      omega
    · rintro i hi _ hpred rfl
      obtain ⟨j, hj, rfl⟩ := List.mem_map.mp hpred
      obtain ⟨j, rfl, -, hfalls, -⟩ := exists_of_mem_valleys hj
      exact hfalls (rises_of_mem_valleys hi)
  have hsub : valleys (Layout.ofSymbols symbols top).rises
      ++ (valleys (Layout.ofSymbols symbols top).rises).map (· - 1) ⊆ List.range symbols.size := by
    intro i hi
    rw [List.mem_range]
    rcases List.mem_append.mp hi with hi | hi
    · exact (mem_valleys_iff.mp hi).1
    · obtain ⟨j, hj, rfl⟩ := List.mem_map.mp hi
      have := (mem_valleys_iff.mp hj).1
      omega
  have hlength := (List.subperm_of_subset hnodup hsub).length_le
  rw [List.length_append, List.length_map, List.length_range] at hlength
  omega

theorem mapM_eq_some_map {α β : Type} {f : α → Option β} {g : α → β} {l : List α}
    (h : ∀ a ∈ l, f a = some (g a)) : l.mapM f = some (l.map g) := by
  induction l with
  | nil => rfl
  | cons a l ih =>
    rw [List.mapM_cons, h a List.mem_cons_self, ih fun b hb => h b (List.mem_cons_of_mem a hb)]
    rfl

/-- **A sorted reduced sequence sorts the valleys.** -/
theorem exists_valleys_sorted {naming : Naming}
    (hnamed : Named symbols top (valleys (Layout.ofSymbols symbols top).rises) naming)
    {order : Array Nat} (horder : Sorted (fun a b => decide (a < b)) naming.names order) :
    ∃ seeds, order.toList.mapM
        (fun k => (valleys (Layout.ofSymbols symbols top).rises).toArray[k]?) = some seeds
      ∧ seeds.Perm (valleys (Layout.ofSymbols symbols top).rises)
      ∧ seeds.Pairwise fun i j => symbols.toList.drop i < symbols.toList.drop j := by
  have hcomplete := horder.complete
  rw [hnamed.size_names] at hcomplete
  refine ⟨order.toList.map fun k =>
    (valleys (Layout.ofSymbols symbols top).rises)[k]?.getD symbols.size, ?_, ?_, ?_⟩
  · refine mapM_eq_some_map fun k hk => ?_
    have hk := List.mem_range.mp (hcomplete.mem_iff.mp hk)
    rw [List.getElem?_toArray, List.getElem?_eq_getElem hk, Option.getD_some]
  · refine (hcomplete.map _).trans (List.Perm.of_eq ?_)
    refine List.ext_getElem (by simp) fun k hk hk' => ?_
    rw [List.getElem_map, List.getElem_range, List.getElem?_eq_getElem hk', Option.getD_some]
  · rw [List.pairwise_map]
    exact horder.ascending.imp fun hlt => lt_of_reduced_lt hnamed (natBefore_iff.mp hlt)

/-! ## The whole algorithm -/

/-- Two symbols. -/
theorem sorted_pair {a b : Nat} (h : symbols = #[a, b]) :
    Sorted (fun a b => decide (a < b)) symbols (if a < b then #[0, 1] else #[1, 0]) := by
  subst h
  split
  · next hlt =>
    refine sorted_of_drop_lt (List.Perm.refl _) (List.pairwise_pair.mpr ?_)
    exact List.cons_lt_cons_iff.mpr (Or.inl hlt)
  · next hle =>
    refine sorted_of_drop_lt (List.Perm.swap _ _ _) (List.pairwise_pair.mpr ?_)
    rcases eq_or_lt_of_le (not_lt.mp hle) with rfl | hlt
    · exact List.cons_lt_cons_iff.mpr (Or.inr ⟨rfl, List.nil_lt_cons _ _⟩)
    · exact List.cons_lt_cons_iff.mpr (Or.inl hlt)

/-- **Short sequences are sorted directly.** -/
theorem exists_sortSuffixes?_of_lt (top : Nat) (hdirect : symbols.size < directSize) :
    ∃ order, sortSuffixes? symbols top = some order
      ∧ Sorted (fun a b => decide (a < b)) symbols order := by
  rw [sortSuffixes?]
  by_cases hzero : symbols.size = 0
  · rw [if_pos hzero]
    obtain rfl := Array.eq_empty_of_size_eq_zero hzero
    exact ⟨_, rfl, sorted_of_drop_lt (List.Perm.refl _) List.Pairwise.nil⟩
  by_cases hone : symbols.size = 1
  · rw [if_neg hzero, if_pos hone]
    refine ⟨_, rfl, sorted_of_drop_lt ?_ (List.pairwise_singleton _ _)⟩
    rw [hone]
    exact List.Perm.refl _
  by_cases htwo : symbols.size = 2
  · rw [if_neg hzero, if_neg hone, if_pos htwo]
    obtain ⟨a, b, hab⟩ := List.length_eq_two.mp (htwo ▸ Array.length_toList)
    obtain rfl : symbols = #[a, b] := Array.toList_inj.mp hab
    exact ⟨_, rfl, sorted_pair rfl⟩
  rw [if_neg hzero, if_neg hone, if_neg htwo, if_pos hdirect]
  exact ⟨_, rfl, sorted_sortDirectly symbols⟩

/-- **The round trip through the reduced sequence** — once the reduced sequence is sorted, the last
round starts from the valleys in that order. -/
theorem sortSuffixes?_eq_induce? {rough reduced order : Array Nat} {topName : Nat}
    {sorted : List Nat} (hlong : directSize ≤ symbols.size)
    (hvalleys : valleys (Layout.ofSymbols symbols top).rises ≠ [])
    (hrough : induce? (Layout.ofSymbols symbols top)
      (valleys (Layout.ofSymbols symbols top).rises) = some rough)
    (hreduce : reduce? symbols (valleys (Layout.ofSymbols symbols top).rises).toArray
      (placesIn symbols.size (valleys (Layout.ofSymbols symbols top).rises))
      (rough.toList.filter (isValley (Layout.ofSymbols symbols top).rises))
        = some (reduced, topName))
    (hshorter : reduced.size < symbols.size)
    (horder : sortSuffixes? reduced topName = some order)
    (hsorted : order.toList.mapM
      (fun k => (valleys (Layout.ofSymbols symbols top).rises).toArray[k]?) = some sorted) :
    sortSuffixes? symbols top = induce? (Layout.ofSymbols symbols top) sorted := by
  have hsize : 32 ≤ symbols.size := hlong
  rw [sortSuffixes?, if_neg (by omega), if_neg (by omega), if_neg (by omega),
    if_neg (Nat.not_lt.mpr hlong)]
  simp only [hrough, hreduce, horder, hsorted, hshorter, hvalleys, List.isEmpty_iff,
    Option.bind_eq_bind, Option.bind_some, if_false, dite_true]

/-- **Sorting by induction gives the sorted order of all suffixes**, by strong induction on the
size: the reduced sequence is shorter. -/
theorem exists_sortSuffixes? (htop : ∀ a ∈ symbols.toList, a ≤ top) :
    ∃ order, sortSuffixes? symbols top = some order
      ∧ Sorted (fun a b => decide (a < b)) symbols order := by
  induction hn : symbols.size using Nat.strong_induction_on generalizing symbols top with
  | h n ih =>
    by_cases hdirect : symbols.size < directSize
    · exact exists_sortSuffixes?_of_lt top hdirect
    have hlong : 32 ≤ symbols.size := Nat.le_of_not_lt hdirect
    have hpos : 0 < symbols.size := by omega
    obtain ⟨rough, hrough, hperm, hstretches⟩ := exists_stretches htop hpos
    by_cases hempty : (valleys (Layout.ofSymbols symbols top).rises) = []
    · obtain ⟨order, horder, hsorted⟩ := exists_induce?_sorted htop hpos
        (List.Perm.refl (valleys (Layout.ofSymbols symbols top).rises))
        (by rw [hempty]; exact List.Pairwise.nil)
      refine ⟨order, ?_, hsorted⟩
      rw [sortSuffixes?, if_neg (by omega), if_neg (by omega), if_neg (by omega), if_neg hdirect]
      rw [hempty] at horder
      simp only [hempty, horder, Option.bind_eq_bind, Option.bind_some, List.isEmpty_nil, if_true]
      rfl
    obtain ⟨naming, hreduce, hnamed⟩ := exists_reduce? hperm
      (fun h => hempty (List.perm_nil.mp (h ▸ hperm).symm)) hstretches
    have hshorter : naming.names.size < symbols.size := by
      have : 2 * (valleys (Layout.ofSymbols symbols top).rises).length ≤ symbols.size :=
        two_mul_length_valleys_le
      rw [hnamed.size_names]
      omega
    obtain ⟨order, horder, hsorted⟩ := ih naming.names.size (hn ▸ hshorter)
      hnamed.name_le rfl
    obtain ⟨seeds, hseeds, hseedsperm, hseedslt⟩ := exists_valleys_sorted hnamed hsorted
    obtain ⟨final, hfinal, hfinalsorted⟩ := exists_induce?_sorted htop hpos hseedsperm hseedslt
    exact ⟨final, (sortSuffixes?_eq_induce? hlong hempty hrough hreduce hshorter horder
      hseeds).trans hfinal, hfinalsorted⟩

end CodeClones.Suffix
