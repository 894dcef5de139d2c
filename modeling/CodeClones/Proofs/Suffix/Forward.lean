import CodeClones.Proofs.Suffix.Bucket
import CodeClones.Proofs.Suffix.Valley
import CodeClones.Suffix.Induced

/-!
# Proofs/Suffix/Forward — seeding and the sweep from left to right

The arrays of a sweep in progress show the filling of a course: every slot holds what the filling
holds, and the cursor of a symbol points to the next free slot of its segment.  No access leaves the
arrays, because there is room for every position that is not placed yet.
-/

namespace CodeClones.Suffix

/-! ## Checked steps -/

theorem put?_eq {α : Type} {entries : Array α} {i : Nat} {a : α} (h : i < entries.size) :
    put? entries i a = some (entries.setIfInBounds i a) := by
  rw [put?, dif_pos h, Array.setIfInBounds, dif_pos h]

theorem lt_size_of_getElem?_eq_some {α : Type} {entries : Array α} {i : Nat} {a : α}
    (h : entries[i]? = some a) : i < entries.size := by
  by_contra hle
  rw [Array.getElem?_eq_none (Nat.le_of_not_lt hle)] at h
  exact absurd h (by simp)

/-- A position goes where the cursor of its symbol points, and the cursor moves on. -/
theorem Sweep.putFront_eq {layout : Layout} {slots : Array (Option Nat)} {cursor : Array Nat}
    {i a place : Nat} (ha : layout.symbols[i]? = some a) (hplace : cursor[a]? = some place)
    (hlt : place < slots.size) :
    Sweep.putFront layout ⟨slots, cursor⟩ i
      = some ⟨slots.setIfInBounds place (some i), cursor.setIfInBounds a (place + 1)⟩ := by
  simp only [Sweep.putFront, ha, hplace, Option.bind_eq_bind, Option.bind_some, put?_eq hlt,
    put?_eq (lt_size_of_getElem?_eq_some hplace), Option.pure_def]

/-- **A loop of checked steps** — it ends if every step keeps what the next one needs. -/
theorem exists_foldlM_range {σ : Type} (step : σ → Nat → Option σ) {n : Nat} {s : σ}
    (inv : Nat → σ → Prop) (hstart : inv 0 s)
    (hstep : ∀ t < n, ∀ s, inv t s → ∃ s', step s t = some s' ∧ inv (t + 1) s') :
    ∃ s', (List.range n).foldlM step s = some s' ∧ inv n s' := by
  induction n with
  | zero => exact ⟨s, rfl, hstart⟩
  | succ n ih =>
    obtain ⟨s', hs', hinv⟩ := ih fun t ht => hstep t (Nat.lt_succ_of_lt ht)
    obtain ⟨s'', hs'', hinv'⟩ := hstep n (Nat.lt_succ_self n) s' hinv
    refine ⟨s'', ?_, hinv'⟩
    rw [List.range_succ, List.foldlM_append, hs']
    simpa using hs''

variable {symbols : Array Nat} {top : Nat} {tag : List Nat → List Nat} {up : Bool}

/-- **The arrays of a sweep show a filling.** -/
structure ShowsFront (symbols : Array Nat) (top : Nat) (tag : List Nat → List Nat) (up : Bool)
    (f : Filling) (sweep : Sweep) : Prop where
  size_slots : sweep.slots.size = symbols.size
  slot : ∀ p < symbols.size, sweep.slots[p]? = some (f.slot p)
  cursor : ∀ a ≤ top, sweep.cursor[a]?
    = some ((Course.forward tag symbols.toList up).next f (2 * a + up.toNat))

/-- The segment of a position that is placed. -/
theorem segment_of_moves {i a : Nat} {rest : List Nat} (ha : symbols.toList.drop i = a :: rest)
    (hmoves : (Course.forward tag symbols.toList up).moves i = true) :
    (Course.forward tag symbols.toList up).segment i = 2 * a + up.toNat := by
  rw [Course.segment_forward ha]
  cases up with
  | false =>
    rw [Course.moves_fall_iff, ha] at hmoves
    rw [grade_of_not_rises hmoves, Bool.toNat_false, Nat.add_zero]
  | true =>
    rw [Course.moves_seed_iff, ha] at hmoves
    rw [grade_of_rises hmoves, Bool.toNat_true]

/-- **Putting a position to the front of its bucket places it.** -/
theorem ShowsFront.putFront {f : Filling} {sweep : Sweep} {i : Nat}
    (htop : ∀ a ∈ symbols.toList, a ≤ top) (hshows : ShowsFront symbols top tag up f sweep)
    (hf : (Course.forward tag symbols.toList up).Good f) (hi : i < symbols.size)
    (hmoves : (Course.forward tag symbols.toList up).moves i = true) (hnew : i ∉ f.placed) :
    ∃ sweep', sweep.putFront (Layout.ofSymbols symbols top) i = some sweep' ∧
      ShowsFront symbols top tag up ((Course.forward tag symbols.toList up).put f i) sweep' := by
  obtain ⟨slots, cursor⟩ := sweep
  obtain ⟨a, ha⟩ := drop_eq_cons (show i < symbols.toList.length by simpa using hi)
  have hatop : a ≤ top := htop a (mem_of_drop_eq_cons ha)
  have hseg := segment_of_moves ha hmoves
  have hcursor := hshows.cursor a hatop
  have hplace := hf.next_lt_size (by simpa using hi) hnew
  rw [hseg, Course.size_forward, Array.length_toList] at hplace
  have hslots : slots.size = symbols.size := hshows.size_slots
  refine ⟨_, Sweep.putFront_eq (getElem?_symbols ha) hcursor (hslots ▸ hplace), ?_, ?_, ?_⟩
  · exact Array.size_setIfInBounds.trans hslots
  · intro p hp
    rw [Array.getElem?_setIfInBounds]
    by_cases hpn : (Course.forward tag symbols.toList up).next f (2 * a + up.toNat) = p
    · rw [if_pos hpn, if_pos (by omega), ← hpn, ← hseg, Course.slot_put_self]
    · rw [if_neg hpn, Course.slot_put_of_ne (by rw [hseg]; exact fun h => hpn h.symm)]
      exact hshows.slot p hp
  · intro b hb
    rw [Array.getElem?_setIfInBounds]
    by_cases hab : a = b
    · subst hab
      rw [if_pos rfl, if_pos (lt_size_of_getElem?_eq_some hcursor), ← hseg, Course.next_put_self]
    · rw [if_neg hab, Course.next_put_of_ne (by rw [hseg]; omega)]
      exact hshows.cursor b hb

/-! ## Seeding -/

/-- **Seeding** — positions that come in order within each segment are placed one after the
other. -/
theorem ShowsFront.foldlM_putFront (htop : ∀ a ∈ symbols.toList, a ≤ top) {seeds : List Nat}
    {f : Filling} {sweep : Sweep} (hshows : ShowsFront symbols top tag up f sweep)
    (hf : (Course.forward tag symbols.toList up).Good f) (hnodup : seeds.Nodup)
    (hseeds : ∀ i ∈ seeds, i < symbols.size
      ∧ (Course.forward tag symbols.toList up).moves i = true ∧ i ∉ f.placed)
    (hsorted : seeds.Pairwise fun i j => (Course.forward tag symbols.toList up).segment i
      = (Course.forward tag symbols.toList up).segment j →
        (Course.forward tag symbols.toList up).before i j)
    (hafter : ∀ j ∈ f.placed, ∀ i ∈ seeds, (Course.forward tag symbols.toList up).segment j
      = (Course.forward tag symbols.toList up).segment i →
        (Course.forward tag symbols.toList up).before j i) :
    ∃ sweep' f', seeds.foldlM (Sweep.putFront (Layout.ofSymbols symbols top)) sweep = some sweep'
      ∧ ShowsFront symbols top tag up f' sweep'
      ∧ (Course.forward tag symbols.toList up).Good f'
      ∧ (∀ i, i ∈ f'.placed ↔ i ∈ seeds ∨ i ∈ f.placed)
      ∧ (∀ p i, f'.slot p = some i → i ∈ seeds ∨ f.slot p = some i) := by
  induction seeds generalizing f sweep with
  | nil => exact ⟨sweep, f, rfl, hshows, hf, by simp, by simp⟩
  | cons i seeds ih =>
    obtain ⟨hi, hmoves, hnew⟩ := hseeds i List.mem_cons_self
    obtain ⟨hni, hnodup⟩ := List.nodup_cons.mp hnodup
    obtain ⟨hfirst, hsorted⟩ := List.pairwise_cons.mp hsorted
    obtain ⟨sweep₁, hput, hshows₁⟩ := hshows.putFront htop hf hi hmoves hnew
    have hf₁ := hf.put (by simpa using hi) hmoves hnew fun j hj hseg =>
      hafter j hj i List.mem_cons_self hseg
    obtain ⟨sweep', f', hfold, hshows', hf', hplaced, hslot⟩ := ih hshows₁ hf₁ hnodup
      (fun j hj => by
        obtain ⟨hj1, hj2, hj3⟩ := hseeds j (List.mem_cons_of_mem _ hj)
        refine ⟨hj1, hj2, fun hmem => ?_⟩
        rcases List.mem_cons.mp hmem with rfl | hmem
        · exact hni hj
        · exact hj3 hmem)
      hsorted
      (fun j hj k hk hseg => by
        rcases List.mem_cons.mp hj with rfl | hj
        · exact hfirst k hk hseg
        · exact hafter j hj k (List.mem_cons_of_mem _ hk) hseg)
    refine ⟨sweep', f', ?_, hshows', hf', fun k => ?_, fun p k hk => ?_⟩
    · rw [List.foldlM_cons, hput]
      exact hfold
    · rw [hplaced k, Course.put, List.mem_cons, List.mem_cons]
      tauto
    · rcases hslot p k hk with hk | hk
      · exact Or.inl (List.mem_cons_of_mem _ hk)
      · rcases Course.slot_put_eq_some hk with ⟨-, rfl⟩ | hk
        · exact Or.inl List.mem_cons_self
        · exact Or.inr hk

/-! ## The sweep -/

/-- **Looking at a slot from the left meets it.** -/
theorem ShowsFront.visitFalling {f : Filling} {sweep : Sweep} {t : Nat}
    (htop : ∀ a ∈ symbols.toList, a ≤ top) (hshows : ShowsFront symbols top tag false f sweep)
    (hf : (Course.forward tag symbols.toList false).Swept t f) (ht : t < symbols.size) :
    ∃ sweep', sweep.visitFalling (Layout.ofSymbols symbols top) t = some sweep' ∧
      ShowsFront symbols top tag false ((Course.forward tag symbols.toList false).visit f t)
        sweep' := by
  rw [Sweep.visitFalling, hshows.slot t ht, Course.visit]
  rcases hslot : f.slot t with - | - | i
  · exact ⟨sweep, rfl, hshows⟩
  · exact ⟨sweep, rfl, hshows⟩
  · have hi : i < symbols.size := by
      have := (hf.within hslot).1
      rw [Course.size_forward, Array.length_toList] at this
      omega
    by_cases hrises : Rises (symbols.toList.drop i)
    · have hmoves : ¬ (Course.forward tag symbols.toList false).moves i = true := by
        rwa [Course.moves_fall_iff, not_not]
      simp only [Option.bind_eq_bind, Option.bind_some, getElem?_rises hi, decide_eq_true hrises]
      rw [if_neg hmoves]
      exact ⟨sweep, rfl, hshows⟩
    · have hmoves : (Course.forward tag symbols.toList false).moves i = true :=
        Course.moves_fall_iff.mpr hrises
      simp only [Option.bind_eq_bind, Option.bind_some, getElem?_rises hi, decide_eq_false hrises]
      rw [if_pos hmoves]
      exact hshows.putFront htop hf.toGood hi hmoves (hf.not_mem_placed hslot)

end CodeClones.Suffix
