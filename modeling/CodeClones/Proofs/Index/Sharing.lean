import CodeClones.Proofs.Hash.Word
import CodeClones.Proofs.Index.Recall

/-!
# Proofs/Index/Sharing — what signatures in one bucket have in common

The hash of a band tells two signatures apart that differ in one row of it
(`bandHash_ne_of_one_differing`), because hashing loses nothing of a word.  So documents that stand
in one bucket agree on all rows of its band or differ in at least two of them, and a band of one row
has no room for that.
-/

namespace CodeClones

namespace Signature

variable {split : Split} {a b : Array UInt64} {band : Nat}

/-- The rows of a band in which two signatures differ. -/
def differingRows (split : Split) (a b : Array UInt64) (band : Nat) : Finset Nat :=
  {row ∈ Finset.range split.rows | (bandSlots split a band)[row]? ≠ (bandSlots split b band)[row]?}

theorem mem_differingRows {row : Nat} : row ∈ differingRows split a b band
    ↔ row < split.rows ∧ (bandSlots split a band)[row]? ≠ (bandSlots split b band)[row]? := by
  rw [differingRows, Finset.mem_filter, Finset.mem_range]

theorem card_differingRows_le (split : Split) (a b : Array UInt64) (band : Nat) :
    (differingRows split a b band).card ≤ split.rows :=
  (Finset.card_filter_le _ _).trans_eq (Finset.card_range split.rows)

/-- **A signature that is long enough has all rows of each band.** -/
theorem length_bandSlots (hlong : split.required ≤ a.size) (hband : band < split.bands) :
    (bandSlots split a band).length = split.rows := by
  have hlast := slot_lt_required hband (Nat.sub_one_lt split.rows_pos.ne')
  have hpos := split.rows_pos
  rw [bandSlots, Array.length_toList, Array.size_extract]
  omega

/-- Rows that are not counted as differing are equal. -/
theorem getElem?_eq_of_not_mem_differingRows {row : Nat} (h : row ∉ differingRows split a b band) :
    (bandSlots split a band)[row]? = (bandSlots split b band)[row]? := by
  by_cases hrow : row < split.rows
  · by_contra hne
    exact h (mem_differingRows.mpr ⟨hrow, hne⟩)
  · rw [getElem?_bandSlots, getElem?_bandSlots, if_neg hrow, if_neg hrow]

theorem differingRows_eq_empty_iff :
    differingRows split a b band = ∅ ↔ bandSlots split a band = bandSlots split b band := by
  rw [Finset.eq_empty_iff_forall_notMem]
  refine ⟨fun h => List.ext_getElem? fun row => getElem?_eq_of_not_mem_differingRows (h row),
    fun h row hmem => (mem_differingRows.mp hmem).2 (by rw [h])⟩

section Long

variable (ha : split.required ≤ a.size) (hb : split.required ≤ b.size) (hband : band < split.bands)

include ha hb hband

/-- **A single differing row shows in the hash of the band.** -/
theorem bandHash_ne_of_one_differing (hone : (differingRows split a b band).card = 1) :
    bandHash split a band ≠ bandHash split b band := by
  obtain ⟨row, hrow⟩ := Finset.card_eq_one.mp hone
  have hdiffer : row ∈ differingRows split a b band := hrow ▸ Finset.mem_singleton_self row
  refine Hash.absorbWords_ne ?_ (mem_differingRows.mp hdiffer).2 (fun other hne => ?_) Hash.basis
  · rw [length_bandSlots ha hband, length_bandSlots hb hband]
  · exact getElem?_eq_of_not_mem_differingRows (by rwa [hrow, Finset.mem_singleton])

/-- **Equal hashes of a band** — all its rows are equal, or at least two of them differ. -/
theorem bandSlots_eq_or_two_le (hhash : bandHash split a band = bandHash split b band) :
    bandSlots split a band = bandSlots split b band
      ∨ 2 ≤ (differingRows split a b band).card := by
  rcases h : (differingRows split a b band).card with - | - | count
  · exact .inl (differingRows_eq_empty_iff.mp (Finset.card_eq_zero.mp h))
  · exact absurd hhash (bandHash_ne_of_one_differing ha hb hband h)
  · exact .inr (by omega)

/-- **A band of one row** has equal hashes exactly for equal rows. -/
theorem bandHash_eq_iff_of_one_row (hrows : split.rows = 1) :
    bandHash split a band = bandHash split b band ↔ a[band]? = b[band]? := by
  have hslots : ∀ slots : Array UInt64, (bandSlots split slots band)[0]? = slots[band]? :=
    fun slots => by rw [getElem?_bandSlots, hrows, if_pos Nat.one_pos, Nat.mul_one, Nat.add_zero]
  constructor
  · intro hhash
    rcases bandSlots_eq_or_two_le ha hb hband hhash with heq | htwo
    · rw [← hslots, ← hslots, heq]
    · have hle := card_differingRows_le split a b band
      omega
  · intro heq
    refine congrArg (Hash.absorbWords Hash.basis) (bandSlots_congr fun row hrow => ?_)
    obtain rfl : row = 0 := by omega
    rwa [hrows, Nat.mul_one, Nat.add_zero]

end Long

end Signature

namespace Index

open Signature

/-- **Documents in one bucket** are stored, with signatures that have the same hash in its band. -/
theorem bandHash_eq_of_mem_bucket {index : Index} (h : Sound index) {band : Nat}
    {table : BandTable} (htable : index.tables[band]? = some table) {hash : UInt64}
    {ids : List DocumentId} (hids : table[hash]? = some ids) {x : DocumentId} (hx : x ∈ ids) :
    ∃ s, index.signature? x = some s ∧ bandHash index.split s.slots band = hash := by
  refine (mem_bucket_iff h htable).mp ?_
  rwa [BandTable.bucket, Std.HashMap.getD_eq_getD_getElem?, hids, Option.getD_some]

/-- **A stored signature has a bucket in each band**, with all whose hashes are the same there. -/
theorem exists_bucket {index : Index} (h : Sound index) {x : DocumentId} {s : Signature}
    (hs : index.signature? x = some s) {band : Nat} (hband : band < index.split.bands) :
    ∃ table ids, index.tables[band]? = some table
      ∧ table[bandHash index.split s.slots band]? = some ids
      ∧ ∀ y t, index.signature? y = some t →
        (y ∈ ids ↔ bandHash index.split t.slots band = bandHash index.split s.slots band) := by
  have htable : index.tables[band]? = some index.tables[band] := Vector.getElem?_eq_getElem hband
  have hmem : ∀ y t, index.signature? y = some t →
      (y ∈ index.tables[band].bucket (bandHash index.split s.slots band)
        ↔ bandHash index.split t.slots band = bandHash index.split s.slots band) := by
    intro y t ht
    rw [mem_bucket_iff h htable, ht]
    simp
  rcases hids : index.tables[band][bandHash index.split s.slots band]? with - | ids
  · have hown := (hmem x s hs).mpr rfl
    rw [BandTable.bucket, Std.HashMap.getD_eq_getD_getElem?, hids] at hown
    exact absurd hown (by simp)
  · rw [BandTable.bucket, Std.HashMap.getD_eq_getD_getElem?, hids, Option.getD_some] at hmem
    exact ⟨_, ids, htable, hids, hmem⟩

/-- **Mixing loses nothing** — the finaliser is a bijection of the words, and a hashing step is one
of the hashes for each word and one of the words for each hash.  So the hashes of a band differ for
signatures that are long enough and differ in exactly one of its rows; if they are equal, all rows
are equal or at least two differ, and with one row in each band that row is equal.  After any
history of an index, this is what any two documents in one bucket have in common. -/
theorem mixing_loses_nothing :
    Function.Bijective Hash.mix
      ∧ (∀ word, Function.Bijective fun hash => Hash.absorb hash word)
      ∧ (∀ hash, Function.Bijective fun word => Hash.absorb hash word)
      ∧ (∀ (split : Split) (a b : Signature) (band : Nat), split.required ≤ a.size →
        split.required ≤ b.size → band < split.bands →
          ((differingRows split a.slots b.slots band).card = 1 →
            bandHash split a.slots band ≠ bandHash split b.slots band)
          ∧ (bandHash split a.slots band = bandHash split b.slots band →
            bandSlots split a.slots band = bandSlots split b.slots band
              ∨ 2 ≤ (differingRows split a.slots b.slots band).card)
          ∧ (split.rows = 1 → (bandHash split a.slots band = bandHash split b.slots band
            ↔ a.slots[band]? = b.slots[band]?)))
      ∧ ∀ (bands rows : Nat) (history : List Operation),
        let index := run (Split.ofCounts bands rows) history
        ∀ (band : Nat) (table : BandTable) (hash : UInt64) (ids : List DocumentId),
          index.tables[band]? = some table → table[hash]? = some ids → ∀ x ∈ ids, ∀ y ∈ ids,
            ∃ s t, index.signature? x = some s ∧ index.signature? y = some t
              ∧ (bandSlots index.split s.slots band = bandSlots index.split t.slots band
                ∨ 2 ≤ (differingRows index.split s.slots t.slots band).card)
              ∧ (index.split.rows = 1 → s.slots[band]? = t.slots[band]?) := by
  refine ⟨Hash.mix_bijective, Hash.absorb_bijective_left, Hash.absorb_bijective_right,
    fun split a b band ha hb hband => ⟨bandHash_ne_of_one_differing ha hb hband,
      bandSlots_eq_or_two_le ha hb hband, bandHash_eq_iff_of_one_row ha hb hband⟩, ?_⟩
  intro bands rows history index band table hash ids htable hids x hx y hy
  have hsound : Sound index := (follows_run (Split.ofCounts bands rows) history).sound
  obtain ⟨s, hs, hshash⟩ := bandHash_eq_of_mem_bucket hsound htable hids hx
  obtain ⟨t, ht, hthash⟩ := bandHash_eq_of_mem_bucket hsound htable hids hy
  have hband : band < index.split.bands := (Vector.getElem?_eq_some_iff.mp htable).1
  have hhash := hshash.trans hthash.symm
  refine ⟨s, t, hs, ht, ?_, fun hrows => ?_⟩
  · exact bandSlots_eq_or_two_le (hsound.long hs) (hsound.long ht) hband hhash
  · exact (bandHash_eq_iff_of_one_row (hsound.long hs) (hsound.long ht) hband hrows).mp hhash

/-- Two signatures of two slots that share the first one: told apart by a band of two rows, in one
bucket of the first of two bands of one row. -/
theorem mixing_loses_nothing_of_shared_slot :
    let a : Signature := ⟨3, #[5, 6]⟩
    let b : Signature := ⟨7, #[5, 9]⟩
    let index := run (Split.ofCounts 2 1) [.insert a, .insert b]
    ((Split.ofCounts 1 2).required ≤ a.size ∧ (Split.ofCounts 1 2).required ≤ b.size
        ∧ 0 < (Split.ofCounts 1 2).bands
        ∧ (differingRows (Split.ofCounts 1 2) a.slots b.slots 0).card = 1
        ∧ bandHash (Split.ofCounts 1 2) a.slots 0 ≠ bandHash (Split.ofCounts 1 2) b.slots 0)
      ∧ ∃ (band : Nat) (table : BandTable) (hash : UInt64) (ids : List DocumentId),
        index.tables[band]? = some table ∧ table[hash]? = some ids ∧ 3 ∈ ids ∧ 7 ∈ ids
        ∧ index.split.rows = 1
        ∧ ∃ s t, index.signature? 3 = some s ∧ index.signature? 7 = some t
          ∧ s.slots[band]? = t.slots[band]? := by
  intro a b index
  obtain ⟨-, -, -, hsplit, hbucket⟩ := mixing_loses_nothing
  have ha : (Split.ofCounts 1 2).required ≤ a.size := by decide
  have hb : (Split.ofCounts 1 2).required ≤ b.size := by decide
  have hband : 0 < (Split.ofCounts 1 2).bands := by decide
  have hone : (differingRows (Split.ofCounts 1 2) a.slots b.slots 0).card = 1 := by decide
  refine ⟨⟨ha, hb, hband, hone, (hsplit _ a b 0 ha hb hband).1 hone⟩, ?_⟩
  have hrun := follows_run (Split.ofCounts 2 1) [.insert a, .insert b]
  have hrows : index.split.rows = 1 := congrArg Split.rows hrun.split_eq
  have hthree : index.signature? 3 = some a := (congrFun hrun.stored 3).trans (by decide)
  have hseven : index.signature? 7 = some b := (congrFun hrun.stored 7).trans (by decide)
  obtain ⟨table, ids, htable, hids, hmem⟩ := exists_bucket hrun.sound hthree
    (show 0 < index.split.bands by rw [hrun.split_eq]; decide)
  have hthree' := (hmem 3 a hthree).mpr rfl
  have hseven' := (hmem 7 b hseven).mpr (by rw [hrun.split_eq]; decide)
  obtain ⟨s, t, hs, ht, -, hslot⟩ := hbucket 2 1 [.insert a, .insert b] 0 table _ ids htable hids
    3 hthree' 7 hseven'
  exact ⟨0, table, _, ids, htable, hids, hthree', hseven', hrows, s, t, hs, ht, hslot hrows⟩

end Index

end CodeClones
