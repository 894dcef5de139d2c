import CodeClones.Proofs.Index.Candidates

/-!
# Proofs/Index/Recall — signatures that differ in few slots are candidates

A slot that differs spoils the band it lies in and no other.  So two signatures that differ in fewer
slots than there are bands agree in a whole band (`exists_agreeing_band`), whatever their slots
hold, and in a sound index they collide there.
-/

namespace CodeClones

namespace Signature

variable {split : Split} {a b : Array UInt64}

/-- The slots in which two signatures differ, among those that are cut into bands. -/
def differing (split : Split) (a b : Array UInt64) : Finset Nat :=
  {slot ∈ Finset.range split.required | a[slot]? ≠ b[slot]?}

theorem mem_differing {slot : Nat} :
    slot ∈ differing split a b ↔ slot < split.required ∧ a[slot]? ≠ b[slot]? := by
  rw [differing, Finset.mem_filter, Finset.mem_range]

/-- A row of a band is one of the slots that are cut into bands. -/
theorem slot_lt_required {band row : Nat} (hband : band < split.bands) (hrow : row < split.rows) :
    band * split.rows + row < split.required := by
  have hnext : (band + 1) * split.rows ≤ split.bands * split.rows :=
    Nat.mul_le_mul_right split.rows hband
  rw [Nat.succ_mul] at hnext
  rw [Split.required]
  omega

/-- The band in which a slot lies. -/
theorem slot_div_rows {band row : Nat} (hrow : row < split.rows) :
    (band * split.rows + row) / split.rows = band := by
  rw [Nat.mul_comm, Nat.mul_add_div split.rows_pos, Nat.div_eq_of_lt hrow, Nat.add_zero]

/-- **Some band is spared** — if fewer slots differ than there are bands. -/
theorem exists_agreeing_band (h : (differing split a b).card < split.bands) :
    ∃ band < split.bands, ∀ row < split.rows,
      a[band * split.rows + row]? = b[band * split.rows + row]? := by
  by_contra hnone
  push Not at hnone
  -- each band names a slot that differs, and the slot names the band
  choose! row hrow hne using hnone
  refine absurd h (Nat.not_lt.mpr ?_)
  have hle : (Finset.range split.bands).card ≤ (differing split a b).card := by
    refine Finset.card_le_card_of_injOn (fun band => band * split.rows + row band) ?_ ?_
    · intro band hband
      have hband := Finset.mem_range.mp hband
      exact mem_differing.mpr ⟨slot_lt_required hband (hrow band hband), hne band hband⟩
    · intro band hband band' hband' heq
      have hdiv := congrArg (· / split.rows) heq
      dsimp only at hdiv
      rwa [slot_div_rows (hrow band (Finset.mem_range.mp hband)),
        slot_div_rows (hrow band' (Finset.mem_range.mp hband'))] at hdiv
  rwa [Finset.card_range] at hle

/-- The rows of a band; a slot that is missing is no row. -/
theorem getElem?_bandSlots (split : Split) (slots : Array UInt64) (band row : Nat) :
    (bandSlots split slots band)[row]?
      = if row < split.rows then slots[band * split.rows + row]? else none := by
  rw [bandSlots, Array.getElem?_toList, Array.getElem?_extract]
  by_cases hrow : row < split.rows
  · rw [if_pos hrow]
    split
    · rfl
    · exact (Array.getElem?_eq_none (by omega)).symm
  · rw [if_neg hrow, if_neg (by omega)]

theorem bandSlots_congr {band : Nat}
    (h : ∀ row < split.rows, a[band * split.rows + row]? = b[band * split.rows + row]?) :
    bandSlots split a band = bandSlots split b band := by
  refine List.ext_getElem? fun row => ?_
  rw [getElem?_bandSlots, getElem?_bandSlots]
  split
  · next hrow => exact h row hrow
  · rfl

/-- **Signatures that differ in few slots have the same hash in some band.** -/
theorem exists_bandHash_eq (h : (differing split a b).card < split.bands) :
    ∃ band < split.bands, bandHash split a band = bandHash split b band := by
  obtain ⟨band, hband, hrows⟩ := exists_agreeing_band h
  exact ⟨band, hband, congrArg (Hash.absorbWords Hash.basis) (bandSlots_congr hrows)⟩

end Signature

namespace Index

section Sound

variable {index : Index} (h : Sound index) {a b : DocumentId} {s t : Signature}
  (hs : index.signature? a = some s) (ht : index.signature? b = some t)

include hs ht

/-- Stored signatures that differ in few slots collide. -/
theorem collides_of_few_differing
    (hfew : (Signature.differing index.split s.slots t.slots).card < index.split.bands) :
    index.Collides a b := by
  obtain ⟨band, hband, hhash⟩ := Signature.exists_bandHash_eq hfew
  exact ⟨s, t, hs, ht, band, hband, hhash⟩

include h

/-- **Documents that collide are a candidate pair**, and each answers the other. -/
theorem found_of_collides (hne : a ≠ b) (hcollides : index.Collides a b) :
    DocumentPair.of a b ∈ index.candidatePairs ∧ b ∈ index.query s ∧ a ∈ index.query t := by
  have hquery : ∀ {a b : DocumentId} {s : Signature}, index.signature? a = some s → a ≠ b →
      index.Collides a b → b ∈ index.query s := fun {a b s} hs hne hcollides => by
    obtain ⟨stored, hstored, hmem⟩ := (mem_query_iff_collides h).mpr ⟨hne.symm, hcollides⟩
    rw [hs] at hstored
    exact Option.some.inj hstored ▸ hmem
  refine ⟨?_, hquery hs hne hcollides, hquery ht hne.symm hcollides.symm⟩
  rcases UInt32.lt_or_lt_of_ne hne with hlt | hlt
  · rw [of_of_lt hlt]
    exact (mem_candidatePairs_iff h).mpr ⟨hlt, hcollides⟩
  · rw [of_comm, of_of_lt hlt]
    exact (mem_candidatePairs_iff h).mpr ⟨hlt, hcollides.symm⟩

end Sound

/-- **No near duplicate is missed** — after any history of an index, two documents whose stored
signatures differ in fewer slots than there are bands, among the slots that are cut into bands, are
a candidate pair, and each is an answer to the signature of the other. -/
theorem found_of_few_differing (bands rows : Nat) (history : List Operation) :
    let index := run (Split.ofCounts bands rows) history
    ∀ ⦃a b : DocumentId⦄ ⦃s t : Signature⦄, index.signature? a = some s →
      index.signature? b = some t → a ≠ b →
      (Signature.differing index.split s.slots t.slots).card < index.split.bands →
        DocumentPair.of a b ∈ index.candidatePairs ∧ b ∈ index.query s ∧ a ∈ index.query t := by
  intro index a b s t hs ht hne hfew
  have hsound : Sound index := (follows_run (Split.ofCounts bands rows) history).sound
  exact found_of_collides hsound hs ht hne (collides_of_few_differing hs ht hfew)

/-- Two bands of two rows, one slot that differs, and a signature that was replaced. -/
theorem found_of_one_differing :
    let index := run (Split.ofCounts 2 2)
      [.insert ⟨7, #[1, 1, 1, 1]⟩, .insertAll [⟨3, #[5, 6, 7, 8]⟩, ⟨7, #[5, 9, 7, 8, 4]⟩]]
    index.signature? 3 = some ⟨3, #[5, 6, 7, 8]⟩
      ∧ index.signature? 7 = some ⟨7, #[5, 9, 7, 8, 4]⟩
      ∧ (Signature.differing index.split #[5, 6, 7, 8] #[5, 9, 7, 8, 4]).card < index.split.bands
      ∧ ⟨3, 7⟩ ∈ index.candidatePairs
      ∧ 7 ∈ index.query ⟨3, #[5, 6, 7, 8]⟩
      ∧ 3 ∈ index.query ⟨7, #[5, 9, 7, 8, 4]⟩ := by
  intro index
  have hrun := follows_run (Split.ofCounts 2 2)
    [.insert ⟨7, #[1, 1, 1, 1]⟩, .insertAll [⟨3, #[5, 6, 7, 8]⟩, ⟨7, #[5, 9, 7, 8, 4]⟩]]
  have hthree : index.signature? 3 = some ⟨3, #[5, 6, 7, 8]⟩ :=
    (congrFun hrun.stored 3).trans (by decide)
  have hseven : index.signature? 7 = some ⟨7, #[5, 9, 7, 8, 4]⟩ :=
    (congrFun hrun.stored 7).trans (by decide)
  have hfew : (Signature.differing index.split #[5, 6, 7, 8] #[5, 9, 7, 8, 4]).card
      < index.split.bands := by
    rw [hrun.split_eq]
    decide
  exact ⟨hthree, hseven, hfew,
    found_of_few_differing 2 2 _ hthree hseven (by decide) hfew⟩

end Index

end CodeClones
