import CodeClones.Proofs.Index.Numbered
import CodeClones.Proofs.Index.Recall

/-!
# Proofs/Index/Probing — a probe looks into two more buckets of one band

To nudge a signature is to move the first row of one band; the other bands keep their rows
(`bandSlots_modify`) and so their hashes.  So the answers to a nudged signature are, apart from
answers to the signature itself, the documents in one bucket of that band (`mem_query_of_nudged`),
and a wider search adds these for the bands that are probed (`mem_queryProbing_iff`).
-/

namespace CodeClones

namespace Signature

variable {split : Split} {slots : Array UInt64} {band other : Nat}

/-- **The hashes that a probe of a band tries** — those of its rows with the first one moved up or
down by one, modulo `2 ^ 64`. -/
def probedHashes (split : Split) (slots : Array UInt64) (band : Nat) : List UInt64 :=
  [Hash.absorbWords Hash.basis ((bandSlots split slots band).modifyHead (· + 1)),
    Hash.absorbWords Hash.basis ((bandSlots split slots band).modifyHead (· - 1))]

/-- The first row of a band is a row of no other band. -/
theorem slot_eq_first_iff {row : Nat} (hrow : row < split.rows) :
    band * split.rows = other * split.rows + row ↔ other = band ∧ row = 0 := by
  constructor
  · intro heq
    have hother : (other * split.rows + row) / split.rows = other := slot_div_rows hrow
    rw [← heq, Nat.mul_div_cancel band split.rows_pos] at hother
    subst hother
    exact ⟨rfl, by omega⟩
  · rintro ⟨rfl, rfl⟩
    rfl

/-- **What changes with the first row of a band** — the first row of that band. -/
theorem bandSlots_modify (f : UInt64 → UInt64) :
    bandSlots split (slots.modify (band * split.rows) f) other
      = if other = band then (bandSlots split slots other).modifyHead f
        else bandSlots split slots other := by
  ext row : 1
  rw [getElem?_bandSlots]
  by_cases hrow : row < split.rows
  · rw [if_pos hrow, Array.getElem?_modify, if_congr (slot_eq_first_iff hrow) rfl rfl]
    split
    · next hfirst =>
      obtain ⟨rfl, rfl⟩ := hfirst
      rw [if_pos rfl, List.getElem?_modifyHead, if_pos rfl, getElem?_bandSlots, if_pos hrow]
    · next hfirst =>
      split
      · next heq =>
        rw [List.getElem?_modifyHead, if_neg fun hzero => hfirst ⟨heq, hzero⟩, getElem?_bandSlots,
          if_pos hrow]
      · rw [getElem?_bandSlots, if_pos hrow]
  · rw [if_neg hrow]
    split
    · rw [List.getElem?_modifyHead, getElem?_bandSlots, if_neg hrow]
      simp
    · rw [getElem?_bandSlots, if_neg hrow]

theorem bandHash_modify_self (f : UInt64 → UInt64) :
    bandHash split (slots.modify (band * split.rows) f) band
      = Hash.absorbWords Hash.basis ((bandSlots split slots band).modifyHead f) := by
  rw [bandHash, bandSlots_modify, if_pos rfl]

theorem bandHash_modify_of_ne (f : UInt64 → UInt64) (hne : other ≠ band) :
    bandHash split (slots.modify (band * split.rows) f) other = bandHash split slots other := by
  rw [bandHash, bandSlots_modify, if_neg hne, bandHash]

end Signature

namespace Index

open Signature

variable {index : Index} {signature : Signature} {id : DocumentId} {probes : Nat}

/-! ## Nudged signatures -/

theorem size_nudge (band : Nat) (delta : UInt64) :
    (index.nudge signature band delta).size = signature.size :=
  Array.size_modify

/-- **The hashes of a nudged signature** in the band that was nudged are those that a probe
tries. -/
theorem mem_probedHashes_iff {band : Nat} {hash : UInt64} :
    hash ∈ probedHashes index.split signature.slots band
      ↔ ∃ near ∈ index.nudged signature band, bandHash index.split near.slots band = hash := by
  have hdown : (fun slot : UInt64 => slot + 0xFFFFFFFFFFFFFFFF) = (· - 1) := by
    ext slot : 1
    exact (UInt64.sub_eq_add_neg slot 1).symm
  simp only [probedHashes, nudged, nudge, List.mem_cons, List.not_mem_nil, or_false,
    exists_eq_or_imp, exists_eq_left, bandHash_modify_self, hdown, eq_comm]

theorem exists_of_mem_nudged {near : Signature} {band : Nat}
    (hnear : near ∈ index.nudged signature band) :
    ∃ delta, near = index.nudge signature band delta := by
  rcases List.mem_cons.mp hnear with rfl | hnear
  · exact ⟨_, rfl⟩
  · exact ⟨_, List.mem_singleton.mp hnear⟩

/-- **An answer to a nudged signature** is an answer to the signature itself, or it stands in a
bucket of the nudged band that a probe tries. -/
theorem mem_query_of_nudged (h : Sound index) (hlong : index.split.required ≤ signature.size)
    {near : Signature} {band : Nat} (hnear : near ∈ index.nudged signature band)
    (hmem : id ∈ index.query near) :
    id ∈ index.query signature ∨ id ≠ signature.id ∧ ∃ stored, index.signature? id = some stored
      ∧ bandHash index.split stored.slots band
        ∈ probedHashes index.split signature.slots band := by
  obtain ⟨delta, rfl⟩ := exists_of_mem_nudged hnear
  obtain ⟨hne, other, hother, stored, hstored, hhash⟩ :=
    (mem_query_iff h (hlong.trans_eq (size_nudge band delta).symm)).mp hmem
  by_cases heq : other = band
  · subst heq
    exact .inr ⟨hne, stored, hstored, mem_probedHashes_iff.mpr ⟨_, hnear, hhash.symm⟩⟩
  · refine .inl ((mem_query_iff h hlong).mpr ⟨hne, other, hother, stored, hstored, ?_⟩)
    rw [hhash]
    exact bandHash_modify_of_ne (· + delta) heq

/-! ## The wider search -/

theorem mem_queryProbing (hlong : index.split.required ≤ signature.size) :
    id ∈ index.queryProbing signature probes
      ↔ id ∈ index.query signature ∨ ∃ band < min probes index.split.bands,
        ∃ near ∈ index.nudged signature band, id ∈ index.query near := by
  rw [queryProbing, if_pos (accepts_iff.mpr hlong), ascendingIds, Order.mem_ascending]
  simp only [List.mem_append, List.mem_flatMap, List.mem_range]

/-- **The answers to a wider search** — the answers to the signature itself, and the other documents
in the buckets that the probes try. -/
theorem mem_queryProbing_iff (h : Sound index) (hlong : index.split.required ≤ signature.size) :
    id ∈ index.queryProbing signature probes
      ↔ id ≠ signature.id ∧ ∃ stored, index.signature? id = some stored
        ∧ (id ∈ index.query signature ∨ ∃ band < min probes index.split.bands,
          bandHash index.split stored.slots band
            ∈ probedHashes index.split signature.slots band) := by
  rw [mem_queryProbing hlong]
  constructor
  · intro hmem
    have hquery : id ∈ index.query signature ∨ id ≠ signature.id ∧ ∃ stored,
        index.signature? id = some stored ∧ ∃ band < min probes index.split.bands,
          bandHash index.split stored.slots band
            ∈ probedHashes index.split signature.slots band := by
      rcases hmem with hmem | ⟨band, hband, near, hnear, hmem⟩
      · exact .inl hmem
      · refine (mem_query_of_nudged h hlong hnear hmem).imp_right ?_
        rintro ⟨hne, stored, hstored, hhash⟩
        exact ⟨hne, stored, hstored, band, hband, hhash⟩
    rcases hquery with hquery | ⟨hne, stored, hstored, hprobed⟩
    · obtain ⟨hne, -, -, stored, hstored, -⟩ := (mem_query_iff h hlong).mp hquery
      exact ⟨hne, stored, hstored, .inl hquery⟩
    · exact ⟨hne, stored, hstored, .inr hprobed⟩
  · rintro ⟨hne, stored, hstored, hquery | ⟨band, hband, hhash⟩⟩
    · exact .inl hquery
    · obtain ⟨near, hnear, hnearhash⟩ := mem_probedHashes_iff.mp hhash
      refine .inr ⟨band, hband, near, hnear, ?_⟩
      obtain ⟨delta, rfl⟩ := exists_of_mem_nudged hnear
      exact (mem_query_iff h (hlong.trans_eq (size_nudge band delta).symm)).mpr
        ⟨hne, band, hband.trans_le (Nat.min_le_right _ _), stored, hstored, hnearhash.symm⟩

theorem queryProbing_of_short (hshort : signature.size < index.split.required) :
    index.queryProbing signature probes = [] := by
  rw [queryProbing, if_neg (not_accepts_iff.mpr hshort)]

theorem pairwise_queryProbing (index : Index) (signature : Signature) (probes : Nat) :
    (index.queryProbing signature probes).Pairwise (· < ·) := by
  rw [queryProbing]
  split
  · exact pairwise_ascendingIds _
  · exact List.Pairwise.nil

theorem pairwise_query (index : Index) (signature : Signature) :
    (index.query signature).Pairwise (· < ·) := by
  rw [query]
  split
  · exact (pairwise_ascendingIds _).filter _
  · exact List.Pairwise.nil

/-- **More probes find more.** -/
theorem queryProbing_mono {fewer more : Nat} (hle : fewer ≤ more) :
    index.queryProbing signature fewer ⊆ index.queryProbing signature more := by
  rcases Nat.lt_or_ge signature.size index.split.required with hshort | hlong
  · rw [queryProbing_of_short hshort]
    exact List.nil_subset _
  · intro id
    rw [mem_queryProbing hlong, mem_queryProbing hlong]
    refine Or.imp_right fun ⟨band, hband, hnear⟩ => ⟨band, ?_, hnear⟩
    exact hband.trans_le (min_le_min_right _ hle)

/-- **Without probes the wider search is the search itself.** -/
theorem queryProbing_zero (index : Index) (signature : Signature) :
    index.queryProbing signature 0 = index.query signature := by
  rcases Nat.lt_or_ge signature.size index.split.required with hshort | hlong
  · rw [queryProbing_of_short hshort, query_of_short signature hshort]
  · refine (pairwise_queryProbing index signature 0).eq_of_mem_iff (pairwise_query index signature)
      fun id => ?_
    rw [mem_queryProbing hlong]
    simp

/-- **A probe adds one band's buckets and nothing else** — after any history of an index, the wider
search for a signature that is long enough answers, in strictly ascending order, exactly those other
documents whose stored signatures are answers to the signature itself or have, in one of the first
`probes` bands, the hash that its rows get when the first of them is moved up or down by one, modulo
`2 ^ 64`.  So its answers include those of the search itself, grow with the probes and are the same
without probes; a signature that is too short has none. -/
theorem probes_add_buckets (bands rows : Nat) (history : List Operation) :
    let index := run (Split.ofCounts bands rows) history
    (∀ (signature : Signature) (probes : Nat), index.split.required ≤ signature.size →
        (index.queryProbing signature probes).Pairwise (· < ·)
        ∧ ∀ id, id ∈ index.queryProbing signature probes
          ↔ id ≠ signature.id ∧ ∃ stored, index.signature? id = some stored
            ∧ (id ∈ index.query signature ∨ ∃ band < min probes index.split.bands,
              bandHash index.split stored.slots band
                ∈ probedHashes index.split signature.slots band))
      ∧ (∀ (signature : Signature) (fewer more : Nat), fewer ≤ more →
        index.query signature ⊆ index.queryProbing signature fewer
        ∧ index.queryProbing signature fewer ⊆ index.queryProbing signature more)
      ∧ (∀ signature : Signature, index.queryProbing signature 0 = index.query signature)
      ∧ ∀ (signature : Signature) (probes : Nat), signature.size < index.split.required →
        index.queryProbing signature probes = [] := by
  intro index
  have h : Sound index := (follows_run (Split.ofCounts bands rows) history).sound
  refine ⟨fun signature probes hlong => ⟨index.pairwise_queryProbing signature probes,
    fun id => mem_queryProbing_iff h hlong⟩, fun signature fewer more hle => ⟨?_,
    queryProbing_mono hle⟩, index.queryProbing_zero, fun signature probes => queryProbing_of_short⟩
  rw [← index.queryProbing_zero]
  exact queryProbing_mono (Nat.zero_le fewer)

/-- Two bands of two rows: moving a row of zero down by one reaches the largest word. -/
theorem probes_add_bucket_of_largest :
    let index := run (Split.ofCounts 2 2)
      [.insert ⟨7, #[0xFFFFFFFFFFFFFFFF, 6, 1, 1]⟩, .insert ⟨3, #[2, 6, 5, 5]⟩]
    let signature : Signature := ⟨9, #[0, 6, 8, 8]⟩
    index.split.required ≤ signature.size
      ∧ 7 ∈ index.queryProbing signature 1
      ∧ 7 ∉ index.queryProbing signature 0 := by
  intro index signature
  have hrun := follows_run (Split.ofCounts 2 2)
    [.insert ⟨7, #[0xFFFFFFFFFFFFFFFF, 6, 1, 1]⟩, .insert ⟨3, #[2, 6, 5, 5]⟩]
  have hlong : index.split.required ≤ signature.size := by
    rw [hrun.split_eq]
    decide
  have hseven : index.signature? 7 = some ⟨7, #[0xFFFFFFFFFFFFFFFF, 6, 1, 1]⟩ :=
    (congrFun hrun.stored 7).trans (by decide)
  obtain ⟨hanswers, -, hnone, -⟩ := probes_add_buckets 2 2
    [.insert ⟨7, #[0xFFFFFFFFFFFFFFFF, 6, 1, 1]⟩, .insert ⟨3, #[2, 6, 5, 5]⟩]
  obtain ⟨-, hanswers⟩ := hanswers signature 1 hlong
  refine ⟨hlong, (hanswers 7).mpr ⟨by decide, _, hseven, .inr ⟨0, ?_, ?_⟩⟩, ?_⟩
  · rw [hrun.split_eq]
    decide
  · rw [hrun.split_eq]
    decide
  · rw [hnone, mem_query_iff hrun.sound hlong, hrun.split_eq]
    rintro ⟨-, band, hband, stored, hstored, hhash⟩
    obtain rfl := Option.some.inj (hseven.symm.trans hstored)
    have hdiffer : ∀ band < 2, bandHash (Split.ofCounts 2 2) #[0xFFFFFFFFFFFFFFFF, 6, 1, 1] band
        ≠ bandHash (Split.ofCounts 2 2) #[0, 6, 8, 8] band := by decide
    exact hdiffer band hband hhash

end Index

end CodeClones
