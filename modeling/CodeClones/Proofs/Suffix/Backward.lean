import CodeClones.Proofs.Suffix.Forward

/-!
# Proofs/Suffix/Backward — the sweep from right to left

Counted from the end, the slots show the filling of the backward course, with one exception: a slot
that is still free there may hold a seed left over from the sweep before.  Meeting it does no harm,
because the position ahead of a valley falls, and the slot is overwritten in the end.
-/

namespace CodeClones.Suffix

/-- A position goes just before where the cursor of the next symbol points, and the cursor moves
back. -/
theorem Sweep.putBack_eq {layout : Layout} {slots : Array (Option Nat)} {cursor : Array Nat}
    {i a place : Nat} (ha : layout.symbols[i]? = some a)
    (hplace : cursor[a + 1]? = some (place + 1)) (hlt : place < slots.size) :
    Sweep.putBack layout ⟨slots, cursor⟩ i
      = some ⟨slots.setIfInBounds place (some i), cursor.setIfInBounds (a + 1) place⟩ := by
  simp only [Sweep.putBack, ha, hplace, Option.bind_eq_bind, Option.bind_some, put?_eq hlt,
    put?_eq (lt_size_of_getElem?_eq_some hplace), Option.pure_def]

variable {symbols : Array Nat} {top : Nat} {tag : List Nat → List Nat}
  {htop : ∀ a ∈ symbols.toList, a ≤ top}

/-- **What a slot may hold instead of being free** — a position with nothing to place ahead. -/
def IsIdle (symbols : Array Nat) (entry : Option Nat) : Prop :=
  ∀ i, entry = some (i + 1) → i < symbols.size ∧ ¬ Rises (symbols.toList.drop i)

/-- **The arrays of a sweep from the right show a filling counted from the end.** -/
structure ShowsBack (symbols : Array Nat) (top : Nat) (tag : List Nat → List Nat)
    (htop : ∀ a ∈ symbols.toList, a ≤ top) (f : Filling) (sweep : Sweep) : Prop where
  size_slots : sweep.slots.size = symbols.size
  slot : ∀ p < symbols.size, ∃ entry, sweep.slots[p]? = some entry
    ∧ (∀ i, f.slot (symbols.size - 1 - p) = some i → entry = some i)
    ∧ (f.slot (symbols.size - 1 - p) = none → IsIdle symbols entry)
  cursor : ∀ a < top, sweep.cursor[a + 1]? = some (symbols.size
    - (Course.backward tag symbols.toList top htop).next f (2 * top - 2 * a))

/-- **Putting a position to the back of its bucket places it.** -/
theorem ShowsBack.putBack {f : Filling} {sweep : Sweep} {i : Nat}
    (hshows : ShowsBack symbols top tag htop f sweep)
    (hf : (Course.backward tag symbols.toList top htop).Good f) (hi : i < symbols.size)
    (hrises : Rises (symbols.toList.drop i)) (hnew : i ∉ f.placed) :
    ∃ sweep', sweep.putBack (Layout.ofSymbols symbols top) i = some sweep' ∧
      ShowsBack symbols top tag htop ((Course.backward tag symbols.toList top htop).put f i)
        sweep' := by
  obtain ⟨slots, cursor⟩ := sweep
  obtain ⟨a, ha⟩ := drop_eq_cons (show i < symbols.toList.length by simpa using hi)
  rw [ha] at hrises
  have hatop : a < top := by
    obtain ⟨b, hb, hab⟩ := exists_lt_of_rises hrises
    exact Nat.lt_of_lt_of_le hab (htop b (List.mem_of_mem_drop hb))
  have hseg : (Course.backward tag symbols.toList top htop).segment i = 2 * top - 2 * a := by
    rw [Course.segment_backward ha, grade_of_rises hrises]
    omega
  have hplace := hf.next_lt_size (by simpa using hi) hnew
  rw [hseg, Course.size_backward, Array.length_toList] at hplace
  have hslots : slots.size = symbols.size := hshows.size_slots
  have hcursor : cursor[a + 1]? = some (symbols.size - 1
      - (Course.backward tag symbols.toList top htop).next f (2 * top - 2 * a) + 1) :=
    (hshows.cursor a hatop).trans (congrArg some (by omega))
  refine ⟨_, Sweep.putBack_eq (getElem?_symbols ha) hcursor (by omega), ?_, ?_, ?_⟩
  · exact Array.size_setIfInBounds.trans hslots
  · intro p hp
    by_cases hpn : symbols.size - 1
        - (Course.backward tag symbols.toList top htop).next f (2 * top - 2 * a) = p
    · refine ⟨some i, ?_, ?_⟩
      · rw [Array.getElem?_setIfInBounds, if_pos hpn, if_pos (by omega)]
      · rw [show symbols.size - 1 - p = (Course.backward tag symbols.toList top htop).next f
          ((Course.backward tag symbols.toList top htop).segment i) by rw [hseg]; omega,
          Course.slot_put_self]
        exact ⟨fun j hj => hj, fun h => absurd h (by simp)⟩
    · rw [Array.getElem?_setIfInBounds, if_neg hpn,
        Course.slot_put_of_ne (by rw [hseg]; omega)]
      exact hshows.slot p hp
  · intro b hb
    rw [Array.getElem?_setIfInBounds]
    by_cases hab : a = b
    · subst hab
      rw [if_pos rfl, if_pos (lt_size_of_getElem?_eq_some hcursor), ← hseg, Course.next_put_self]
      congr 1
      omega
    · rw [if_neg (by omega), Course.next_put_of_ne (by rw [hseg]; omega)]
      exact hshows.cursor b hb

theorem Sweep.visitRising_of_isIdle {sweep : Sweep} {p : Nat} {entry : Option Nat}
    (hentry : sweep.slots[p]? = some entry) (hidle : IsIdle symbols entry) :
    sweep.visitRising (Layout.ofSymbols symbols top) p = some sweep := by
  rw [Sweep.visitRising, hentry]
  match entry with
  | none => rfl
  | some 0 => rfl
  | some (i + 1) =>
    obtain ⟨hi, hfalls⟩ := hidle i rfl
    simp only [Option.bind_eq_bind, Option.bind_some, getElem?_rises hi, decide_eq_false hfalls]
    rfl

/-- **Looking at a slot from the right meets it.** -/
theorem ShowsBack.visitRising {f : Filling} {sweep : Sweep} {t : Nat}
    (hshows : ShowsBack symbols top tag htop f sweep)
    (hf : (Course.backward tag symbols.toList top htop).Swept t f) (ht : t < symbols.size) :
    ∃ sweep', sweep.visitRising (Layout.ofSymbols symbols top) (symbols.size - 1 - t)
        = some sweep'
      ∧ ShowsBack symbols top tag htop ((Course.backward tag symbols.toList top htop).visit f t)
        sweep' := by
  obtain ⟨entry, hentry, hfull, hfree⟩ := hshows.slot (symbols.size - 1 - t) (by omega)
  rw [show symbols.size - 1 - (symbols.size - 1 - t) = t by omega] at hfull hfree
  rw [Course.visit]
  rcases hslot : f.slot t with - | - | i
  · exact ⟨sweep, Sweep.visitRising_of_isIdle hentry (hfree hslot), hshows⟩
  · refine ⟨sweep, Sweep.visitRising_of_isIdle hentry fun i hi => ?_, hshows⟩
    rw [hfull 0 hslot] at hi
    exact absurd hi (by simp)
  · have hi : i < symbols.size := by
      have := (hf.within hslot).1
      rw [Course.size_backward, Array.length_toList] at this
      omega
    rw [hfull (i + 1) hslot] at hentry
    by_cases hrises : Rises (symbols.toList.drop i)
    · dsimp only
      rw [if_pos (Course.moves_backward_iff.mpr hrises), Sweep.visitRising, hentry]
      simp only [Option.bind_eq_bind, Option.bind_some, getElem?_rises hi, decide_eq_true hrises]
      exact hshows.putBack hf.toGood hi hrises (hf.not_mem_placed hslot)
    · dsimp only
      rw [if_neg fun h => hrises (Course.moves_backward_iff.mp h)]
      refine ⟨sweep, Sweep.visitRising_of_isIdle hentry fun j hj => ?_, hshows⟩
      obtain rfl : i = j := by simpa using hj
      exact ⟨hi, hrises⟩

end CodeClones.Suffix
