import CodeClones.Proofs.Suffix.Backward

/-!
# Proofs/Suffix/Induced — induced sorting sorts by stretches

Seeded with the valleys, in the order of their tags within each bucket, `induce?` lists all
positions in the order of their tagged stretches (`exists_induce?`).  With the trails as tags this
is the order of the suffixes; with the positions as tags it is a refinement of the order of the
stretches.
-/

namespace CodeClones.Suffix

variable {symbols : Array Nat} {top : Nat} {tag : List Nat → List Nat} {seeds : List Nat}

/-- **Seeds in the order of their tags** — the valleys in an order that agrees with that of the tags
wherever the grades are equal. -/
structure Seeds (symbols : Array Nat) (top : Nat) (tag : List Nat → List Nat) (seeds : List Nat) :
    Prop where
  perm : seeds.Perm (valleys (Layout.ofSymbols symbols top).rises)
  sorted : seeds.Pairwise fun i j =>
    (trail symbols.toList).getD i 0 = (trail symbols.toList).getD j 0 →
    tag (symbols.toList.drop (i + 1)) < tag (symbols.toList.drop (j + 1))

theorem Seeds.rises {i : Nat} (hseeds : Seeds symbols top tag seeds) (hi : i ∈ seeds) :
    i < symbols.size ∧ Rises (symbols.toList.drop i) :=
  have hmem := hseeds.perm.mem_iff.mp hi
  ⟨(mem_valleys_iff.mp hmem).1, rises_of_mem_valleys hmem⟩

/-! ## Seeding -/

/-- **The valleys find room at the front of the rising parts of their buckets.** -/
theorem exists_seeded (htop : ∀ a ∈ symbols.toList, a ≤ top)
    (hseeds : Seeds symbols top tag seeds) :
    ∃ sweep f, seeds.foldlM (Sweep.putFront (Layout.ofSymbols symbols top))
        ⟨Array.replicate symbols.size none, (Layout.ofSymbols symbols top).middles⟩ = some sweep
      ∧ ShowsFront symbols top tag true f sweep
      ∧ (Course.forward tag symbols.toList true).Good f
      ∧ (∀ i ∈ seeds, ∃ p, f.slot p = some i)
      ∧ (∀ p i, f.slot p = some i → i ∈ seeds) := by
  have hblank : (Course.forward tag symbols.toList true).Good ⟨fun _ => none, []⟩ :=
    { nodup := List.nodup_nil
      moved := fun h => absurd h (by simp)
      kept := fun h => absurd h (by simp)
      within := fun h => absurd h (by simp)
      front := fun h => absurd h (by simp)
      sorted := fun _ h => absurd h (by simp) }
  have hshows : ShowsFront symbols top tag true ⟨fun _ => none, []⟩
      ⟨Array.replicate symbols.size none, (Layout.ofSymbols symbols top).middles⟩ :=
    { size_slots := Array.size_replicate
      slot := fun p hp => by rw [Array.getElem?_replicate, if_pos hp]
      cursor := fun a ha => getElem?_middles true ha }
  have hsorted : seeds.Pairwise fun i j => (Course.forward tag symbols.toList true).segment i
      = (Course.forward tag symbols.toList true).segment j →
        (Course.forward tag symbols.toList true).before i j := by
    refine hseeds.sorted.imp_of_mem fun {i j} hi hj htag hseg => ?_
    obtain ⟨hilt, hirises⟩ := hseeds.rises hi
    obtain ⟨hjlt, hjrises⟩ := hseeds.rises hj
    obtain ⟨a, ha⟩ := drop_eq_cons (show i < symbols.toList.length by simpa using hilt)
    obtain ⟨b, hb⟩ := drop_eq_cons (show j < symbols.toList.length by simpa using hjlt)
    have hgrade := hseg
    rw [Course.segment_forward ha, Course.segment_forward hb] at hgrade
    rw [ha] at hirises
    rw [hb] at hjrises
    change descent tag (symbols.toList.drop i) < descent tag (symbols.toList.drop j)
    rw [ha, hb, descent_of_rises hirises, descent_of_rises hjrises]
    exact List.cons_lt_cons_iff.mpr (Or.inr ⟨hgrade, htag hseg⟩)
  obtain ⟨sweep, f, hfold, hshows', hf, hplaced, hslot⟩ := hshows.foldlM_putFront htop hblank
    (hseeds.perm.nodup_iff.mpr (nodup_valleys _))
    (fun i hi => ⟨(hseeds.rises hi).1, Course.moves_seed_iff.mpr (hseeds.rises hi).2, by simp⟩)
    hsorted (by simp)
  refine ⟨sweep, f, hfold, hshows', hf, fun i hi => hf.kept ((hplaced i).mpr (Or.inl hi)),
    fun p i hp => ?_⟩
  rcases hslot p i hp with h | h
  · exact h
  · exact absurd h (by simp)

/-! ## From left to right -/

/-- Seeds are not in the way of the falling positions. -/
theorem Course.Good.toFall {f : Filling} (hf : (Course.forward tag symbols.toList true).Good f)
    (hrises : ∀ p i, f.slot p = some i → Rises (symbols.toList.drop i)) :
    (Course.forward tag symbols.toList false).Good ⟨f.slot, []⟩ where
  nodup := List.nodup_nil
  moved h := absurd h (by simp)
  kept h := absurd h (by simp)
  within := hf.within
  front hp hmoves := absurd (hrises _ _ hp) (Course.moves_fall_iff.mp hmoves)
  sorted := hf.sorted

/-- The sweep from the left starts with the last position. -/
theorem swept_last {f : Filling} (hpos : 0 < symbols.size)
    (hf : (Course.forward tag symbols.toList false).Good ⟨f.slot, []⟩) :
    (Course.forward tag symbols.toList false).Swept 0
      ((Course.forward tag symbols.toList false).put ⟨f.slot, []⟩ (symbols.size - 1)) where
  toGood := hf.put (by rw [Course.size_forward, Array.length_toList]; omega)
    (Course.moves_fall_iff.mpr (not_rises_last hpos)) (by simp) (by simp)
  origin {i} hi := by
    obtain rfl : i = symbols.size - 1 := by simpa [Course.put] using hi
    rw [Course.size_forward, Array.length_toList]
    exact Or.inl (by omega)
  met h := absurd h (Nat.not_lt_zero _)
  last {i} hi _ := by
    rw [Course.size_forward, Array.length_toList] at hi
    rw [Course.put, show symbols.size - 1 = i by omega]
    exact List.mem_cons_self

/-- **The sweep from the left places everything that falls.** -/
theorem exists_fallen (htop : ∀ a ∈ symbols.toList, a ≤ top) (hpos : 0 < symbols.size)
    (hseeds : Seeds symbols top tag seeds) {seeded : Sweep} {f : Filling}
    (hshows : ShowsFront symbols top tag true f seeded)
    (hf : (Course.forward tag symbols.toList true).Good f)
    (hkept : ∀ i ∈ seeds, ∃ p, f.slot p = some i)
    (hslot : ∀ p i, f.slot p = some i → i ∈ seeds) :
    ∃ started fallen g, Sweep.putFront (Layout.ofSymbols symbols top)
        ⟨seeded.slots, (Layout.ofSymbols symbols top).heads⟩ (symbols.size - 1) = some started
      ∧ (List.range symbols.size).foldlM (Sweep.visitFalling (Layout.ofSymbols symbols top)) started
        = some fallen
      ∧ ShowsFront symbols top tag false g fallen
      ∧ (Course.forward tag symbols.toList false).Good g
      ∧ (∀ i < symbols.size, ¬ Rises (symbols.toList.drop i) → ∃ p, g.slot p = some i)
      ∧ (∀ p i, g.slot p = some i → Rises (symbols.toList.drop i) → i ∈ seeds) := by
  have hf₀ := hf.toFall fun p i hp => (hseeds.rises (hslot p i hp)).2
  have hshows₀ : ShowsFront symbols top tag false ⟨f.slot, []⟩
      ⟨seeded.slots, (Layout.ofSymbols symbols top).heads⟩ :=
    { size_slots := hshows.size_slots
      slot := hshows.slot
      cursor := fun a ha => getElem?_heads false ha }
  have hlast := not_rises_last hpos
  have hmoves : (Course.forward tag symbols.toList false).moves (symbols.size - 1) = true :=
    Course.moves_fall_iff.mpr hlast
  have hlt : symbols.size - 1 < symbols.size := by omega
  obtain ⟨started, hstarted, hshows₁⟩ := hshows₀.putFront htop hf₀ hlt hmoves (by simp)
  have hswept := swept_last hpos hf₀
  obtain ⟨fallen, hfallen, hshows₂⟩ := exists_foldlM_range
    (Sweep.visitFalling (Layout.ofSymbols symbols top)) (n := symbols.size)
    (fun t sweep => ShowsFront symbols top tag false
      ((Course.forward tag symbols.toList false).sweep _ t) sweep) hshows₁
    fun t ht sweep hsweep => by
      rw [Course.sweep_succ]
      exact hsweep.visitFalling htop (Course.swept_sweep Course.chained_forward hswept t) ht
  have hdone := Course.swept_sweep Course.chained_forward hswept symbols.size
  have hbefore : ∀ {p i : Nat}, f.slot p = some i → ((Course.forward tag symbols.toList false).sweep
      ((Course.forward tag symbols.toList false).put ⟨f.slot, []⟩ (symbols.size - 1))
      symbols.size).slot p = some i := fun hp =>
    Course.slot_sweep_of_slot Course.chained_forward hswept _
      (Course.slot_put_of_slot hf₀ (by simpa using hlt) hmoves (by simp) hp)
  refine ⟨started, fallen, _, hstarted, hfallen, hshows₂, hdone.toGood, fun i hi hfalls => ?_,
    fun p i hp hrises => ?_⟩
  · refine hdone.kept (Course.Swept.mem_placed (by simpa using hdone)
      (fun j hj hjfalls hjrises => ?_) (by simpa using hi) (Course.moves_fall_iff.mpr hfalls))
    rw [Course.size_forward, Array.length_toList] at hj
    have hvalley : j + 1 ∈ seeds := hseeds.perm.mem_iff.mpr
      (succ_mem_valleys hj (Course.moves_fall_iff.mp hjfalls)
        (by simpa [Course.forward] using hjrises))
    obtain ⟨p, hp⟩ := hkept _ hvalley
    exact ⟨p, hbefore hp⟩
  · have hstill : (Course.forward tag symbols.toList false).moves i = false := by
      simpa [Course.forward] using hrises
    rcases Course.slot_put_eq_some (Course.slot_of_slot_sweep hstill hp) with ⟨-, rfl⟩ | hp
    · exact absurd hrises hlast
    · exact hslot p i hp

/-! ## From right to left -/

/-- Only the falling positions of a filling, counted from the end. -/
def turned (symbols : Array Nat) (f : Filling) : Filling where
  slot p := if p < symbols.size then
      (f.slot (symbols.size - 1 - p)).filter fun i => !decide (Rises (symbols.toList.drop i))
    else none
  placed := []

theorem slot_turned_eq_some {f : Filling} {p i : Nat} :
    (turned symbols f).slot p = some i ↔ p < symbols.size
      ∧ f.slot (symbols.size - 1 - p) = some i ∧ ¬ Rises (symbols.toList.drop i) := by
  rw [turned]
  dsimp only
  split
  · next hp => simp [hp, Option.filter_eq_some_iff]
  · next hp => simp [hp]

/-- **The falling positions stand where the sweep from the right needs them.** -/
theorem good_turned (htop : ∀ a ∈ symbols.toList, a ≤ top) {f : Filling}
    (hf : (Course.forward tag symbols.toList false).Good f) :
    (Course.backward tag symbols.toList top htop).Good (turned symbols f) where
  nodup := List.nodup_nil
  moved h := absurd h (by simp [turned])
  kept h := absurd h (by simp [turned])
  within {p i} hp := by
    obtain ⟨hlt, hslot, hfalls⟩ := slot_turned_eq_some.mp hp
    obtain ⟨hi, hfirst, hlast⟩ := hf.within hslot
    rw [Course.size_forward] at hi
    obtain ⟨a, ha⟩ := drop_eq_cons hi
    have hle := grade_le (symbols.toList.drop (i + 1)) (htop a (mem_of_drop_eq_cons ha))
    rw [Course.segment_forward ha] at hfirst hlast
    rw [Course.segment_backward ha, Course.size_backward]
    have h1 := start_backward tag htop false
      (g := grade a (symbols.toList.drop (i + 1))) (by omega)
    have h2 := start_backward tag htop false
      (g := grade a (symbols.toList.drop (i + 1)) + 1) (by omega)
    rw [show 2 * top + 2 - grade a (symbols.toList.drop (i + 1))
      = 2 * top + 1 - grade a (symbols.toList.drop (i + 1)) + 1 by omega] at h1
    rw [show 2 * top + 2 - (grade a (symbols.toList.drop (i + 1)) + 1)
      = 2 * top + 1 - grade a (symbols.toList.drop (i + 1)) by omega] at h2
    exact ⟨hi, by omega, by omega⟩
  front hp hmoves :=
    absurd (Course.moves_backward_iff.mp hmoves) (slot_turned_eq_some.mp hp).2.2
  sorted {p q i j} hpq hp hq := by
    obtain ⟨hplt, hpslot, hpfalls⟩ := slot_turned_eq_some.mp hp
    obtain ⟨hqlt, hqslot, hqfalls⟩ := slot_turned_eq_some.mp hq
    have hbefore := hf.sorted (by omega) hqslot hpslot
    have hilt := (hf.within hpslot).1
    have hjlt := (hf.within hqslot).1
    rw [Course.size_forward] at hilt hjlt
    obtain ⟨a, ha⟩ := drop_eq_cons hilt
    obtain ⟨b, hb⟩ := drop_eq_cons hjlt
    change stretch tag (symbols.toList.drop j) < stretch tag (symbols.toList.drop i)
    rw [ha] at hpfalls
    rw [hb] at hqfalls
    rw [ha, hb, stretch_eq_descent hpfalls, stretch_eq_descent hqfalls, ← ha, ← hb]
    exact hbefore

/-- Nothing is placed before the first slot from the right is met: the last position falls. -/
theorem swept_turned (htop : ∀ a ∈ symbols.toList, a ≤ top) {f : Filling}
    (hf : (Course.forward tag symbols.toList false).Good f) :
    (Course.backward tag symbols.toList top htop).Swept 0 (turned symbols f) where
  toGood := good_turned htop hf
  origin h := absurd h (by simp [turned])
  met h := absurd h (Nat.not_lt_zero _)
  last {i} hi hmoves := by
    rw [Course.size_backward] at hi
    obtain ⟨a, ha⟩ := drop_eq_cons (show i < symbols.toList.length by omega)
    rw [Course.moves_backward_iff, ha, List.drop_eq_nil_of_le (Nat.le_of_eq hi.symm)] at hmoves
    exact absurd hmoves (not_rises_singleton a)

/-- **The arrays as the first sweep leaves them** — what is left of the seeds is idle. -/
theorem showsBack_turned (htop : ∀ a ∈ symbols.toList, a ≤ top)
    (hseeds : Seeds symbols top tag seeds) {fallen : Sweep} {f : Filling}
    (hshows : ShowsFront symbols top tag false f fallen)
    (hleft : ∀ p i, f.slot p = some i → Rises (symbols.toList.drop i) → i ∈ seeds) :
    ShowsBack symbols top tag htop (turned symbols f)
      ⟨fallen.slots, (Layout.ofSymbols symbols top).heads⟩ where
  size_slots := hshows.size_slots
  slot p hp := by
    have hflip : symbols.size - 1 - (symbols.size - 1 - p) = p := by omega
    refine ⟨f.slot p, hshows.slot p hp, fun i hi => ?_, fun hfree i hi => ?_⟩
    · have hslot := (slot_turned_eq_some.mp hi).2.1
      rwa [hflip] at hslot
    · have hrises : Rises (symbols.toList.drop (i + 1)) := by
        by_contra hfalls
        have hslot : (turned symbols f).slot (symbols.size - 1 - p) = some (i + 1) :=
          slot_turned_eq_some.mpr ⟨by omega, by rwa [hflip], hfalls⟩
        rw [hfree] at hslot
        exact absurd hslot (by simp)
      obtain ⟨j, hj, hlt, hjfalls, -⟩ :=
        exists_of_mem_valleys (hseeds.perm.mem_iff.mp (hleft p _ hi hrises))
      obtain rfl : i = j := by omega
      exact ⟨by omega, hjfalls⟩
  cursor a ha := by
    have hstart := start_backward tag htop false (g := 2 * (a + 1)) (by omega)
    have hhead : (Layout.ofSymbols symbols top).heads[a + 1]?
        = some ((Course.forward tag symbols.toList false).start (2 * (a + 1))) :=
      getElem?_heads false (by omega)
    rw [hhead, Course.next, turned,
      List.countP_nil, Nat.add_zero, show 2 * top - 2 * a = 2 * top + 2 - 2 * (a + 1) by omega]
    exact congrArg some (by omega)

/-- **A slot that is filled from the right** is shown from the left. -/
theorem ShowsBack.getElem?_slots {htop : ∀ a ∈ symbols.toList, a ≤ top} {g : Filling}
    {sweep : Sweep} (hshows : ShowsBack symbols top tag htop g sweep)
    (hg : (Course.backward tag symbols.toList top htop).Good g) {p i : Nat}
    (hp : g.slot p = some i) :
    p < symbols.size ∧ sweep.slots[symbols.size - 1 - p]? = some (some i) := by
  have hplt := Nat.lt_of_lt_of_le (hg.within hp).2.2 (Course.start_le_size _ _)
  rw [Course.size_backward, Array.length_toList] at hplt
  obtain ⟨entry, hentry, hfull, -⟩ := hshows.slot (symbols.size - 1 - p) (by omega)
  rw [show symbols.size - 1 - (symbols.size - 1 - p) = p by omega] at hfull
  exact ⟨hplt, by rw [hentry, hfull i hp]⟩

/-- **The sweep from the right places everything that rises.** -/
theorem exists_risen (htop : ∀ a ∈ symbols.toList, a ≤ top) (hseeds : Seeds symbols top tag seeds)
    {fallen : Sweep} {f : Filling} (hshows : ShowsFront symbols top tag false f fallen)
    (hf : (Course.forward tag symbols.toList false).Good f)
    (hfalling : ∀ i < symbols.size, ¬ Rises (symbols.toList.drop i) → ∃ p, f.slot p = some i)
    (hleft : ∀ p i, f.slot p = some i → Rises (symbols.toList.drop i) → i ∈ seeds) :
    ∃ risen g, (List.range symbols.size).reverse.foldlM
        (Sweep.visitRising (Layout.ofSymbols symbols top))
        ⟨fallen.slots, (Layout.ofSymbols symbols top).heads⟩ = some risen
      ∧ ShowsBack symbols top tag htop g risen
      ∧ (Course.backward tag symbols.toList top htop).Good g
      ∧ ∀ i < symbols.size, ∃ p, g.slot p = some i := by
  have hswept := swept_turned htop hf
  obtain ⟨risen, hrisen, hshows'⟩ := exists_foldlM_range
    (fun sweep t => Sweep.visitRising (Layout.ofSymbols symbols top) sweep (symbols.size - 1 - t))
    (fun t sweep => ShowsBack symbols top tag htop
      ((Course.backward tag symbols.toList top htop).sweep (turned symbols f) t) sweep)
    (showsBack_turned htop hseeds hshows hleft) (n := symbols.size) fun t ht sweep hsweep => by
      rw [Course.sweep_succ]
      exact hsweep.visitRising (Course.swept_sweep Course.chained_backward hswept t) ht
  have hdone := Course.swept_sweep Course.chained_backward hswept symbols.size
  have hfell : ∀ i < symbols.size, ¬ Rises (symbols.toList.drop i) →
      ∃ p, ((Course.backward tag symbols.toList top htop).sweep (turned symbols f)
        symbols.size).slot p = some i := fun i hi hfalls => by
    obtain ⟨p, hp⟩ := hfalling i hi hfalls
    have hplt := Nat.lt_of_lt_of_le (hf.within hp).2.2 (Course.start_le_size _ _)
    rw [Course.size_forward, Array.length_toList] at hplt
    refine ⟨symbols.size - 1 - p, Course.slot_sweep_of_slot Course.chained_backward hswept _
      (slot_turned_eq_some.mpr ⟨by omega, ?_, hfalls⟩)⟩
    rwa [show symbols.size - 1 - (symbols.size - 1 - p) = p by omega]
  refine ⟨risen, _, ?_, hshows', hdone.toGood, fun i hi => ?_⟩
  · rw [List.range_eq_range', List.reverse_range', List.foldlM_map, Nat.zero_add, ← hrisen,
      List.range_eq_range']
  · by_cases hrises : Rises (symbols.toList.drop i)
    · have hsize : (Course.backward tag symbols.toList top htop).size = symbols.size := by
        rw [Course.size_backward, Array.length_toList]
      refine hdone.kept (Course.Swept.mem_placed (by rwa [hsize]) (fun j hj _ hjfalls => ?_)
        (by rwa [hsize]) (Course.moves_backward_iff.mpr hrises))
      rw [hsize] at hj
      exact hfell (j + 1) hj (by simpa [Course.backward] using hjfalls)
    · exact hfell i hi hrises

/-! ## The result -/

/-- As many slots as positions, each position in some slot: every slot is filled. -/
theorem exists_map_some_eq (entries : List (Option Nat))
    (hmem : ∀ i < entries.length, some i ∈ entries) :
    ∃ order : List Nat, entries = order.map some ∧ order.Perm (List.range entries.length) := by
  have hsub : ((List.range entries.length).map some).Subperm entries :=
    List.subperm_of_subset (List.nodup_range.map fun _ _ => Option.some.inj) fun e he => by
      obtain ⟨i, hi, rfl⟩ := List.mem_map.mp he
      exact hmem i (List.mem_range.mp hi)
  have hperm : ((List.range entries.length).map some).Perm entries :=
    hsub.perm_of_length_le (by simp)
  refine ⟨entries.filterMap id, ?_, ?_⟩
  · have hall : ∀ e ∈ entries, e.isSome = true := fun e he => by
      obtain ⟨i, -, rfl⟩ := List.mem_map.mp (hperm.mem_iff.mpr he)
      rfl
    clear hmem hsub hperm
    induction entries with
    | nil => rfl
    | cons e entries ih =>
      obtain ⟨i, rfl⟩ := Option.isSome_iff_exists.mp (hall e List.mem_cons_self)
      rw [List.filterMap_cons_some (show id (some i) = some i from rfl), List.map_cons,
        ← ih fun e he => hall e (List.mem_cons_of_mem _ he)]
  · have hfilter := hperm.symm.filterMap id
    rwa [List.filterMap_map, Function.id_comp, List.filterMap_some] at hfilter

theorem mapM_id_map_some (order : List Nat) : (order.map some).mapM id = some order := by
  induction order with
  | nil => rfl
  | cons i order ih => simp [ih]

/-- **Induced sorting lists the positions in the order of their tagged stretches.** -/
theorem exists_induce? (htop : ∀ a ∈ symbols.toList, a ≤ top) (hpos : 0 < symbols.size)
    (hseeds : Seeds symbols top tag seeds) :
    ∃ order, induce? (Layout.ofSymbols symbols top) seeds = some order
      ∧ order.toList.Perm (List.range symbols.size)
      ∧ order.toList.Pairwise fun i j =>
          stretch tag (symbols.toList.drop i) < stretch tag (symbols.toList.drop j) := by
  obtain ⟨seeded, f, hseeded, hshows, hf, hkept, hslot⟩ := exists_seeded htop hseeds
  obtain ⟨started, fallen, f', hstarted, hfallen, hshows', hf', hfalling, hleft⟩ :=
    exists_fallen htop hpos hseeds hshows hf hkept hslot
  obtain ⟨risen, g, hrisen, hback, hg, hall⟩ :=
    exists_risen htop hseeds hshows' hf' hfalling hleft
  have hlength : risen.slots.toList.length = symbols.size := by
    rw [Array.length_toList, hback.size_slots]
  obtain ⟨order, horder, hperm⟩ := exists_map_some_eq risen.slots.toList fun i hi => by
    obtain ⟨p, hp⟩ := hall i (hlength ▸ hi)
    have hget := (hback.getElem?_slots hg hp).2
    rw [← Array.getElem?_toList] at hget
    exact List.mem_of_getElem? hget
  rw [hlength] at hperm
  have hslots : risen.slots = (order.map some).toArray := by rw [← horder, Array.toArray_toList]
  refine ⟨order.toArray, ?_, hperm, List.pairwise_iff_getElem.mpr fun p q hp hq hpq => ?_⟩
  · simp only [induce?, Option.bind_eq_bind]
    rw [show (Layout.ofSymbols symbols top).symbols.size = symbols.size from rfl, hseeded,
      Option.bind_some, hstarted, Option.bind_some, hfallen, Option.bind_some, hrisen,
      Option.bind_some, hslots, List.mapM_toArray, mapM_id_map_some]
    rfl
  · have hfind : ∀ {k : Nat} (hk : k < order.length),
        ∃ p, g.slot p = some order[k] ∧ symbols.size - 1 - p = k := fun {k} hk => by
      obtain ⟨p, hp⟩ := hall order[k] (List.mem_range.mp (hperm.mem_iff.mp (List.getElem_mem hk)))
      have hget := (hback.getElem?_slots hg hp).2
      rw [hslots, List.getElem?_toArray, List.getElem?_map, Option.map_eq_some_iff] at hget
      obtain ⟨i, hi, heq⟩ := hget
      obtain ⟨hlt, hi⟩ := List.getElem?_eq_some_iff.mp hi
      have hsame : order[symbols.size - 1 - p] = order[k] := hi.trans (Option.some.inj heq)
      exact ⟨p, hp, (hperm.nodup_iff.mpr List.nodup_range).getElem_inj_iff.mp hsame⟩
    obtain ⟨p', hp', hpp⟩ := hfind hp
    obtain ⟨q', hq', hqq⟩ := hfind hq
    have hplt := (hback.getElem?_slots hg hp').1
    have hqlt := (hback.getElem?_slots hg hq').1
    exact hg.sorted (by omega) hq' hp'

end CodeClones.Suffix
