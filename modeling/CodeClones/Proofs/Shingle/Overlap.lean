import CodeClones.Proofs.Shingle.Window
import CodeClones.Proofs.Similarity.Overlap
import CodeClones.Proofs.Similarity.Rational

/-!
# Proofs/Shingle/Overlap — texts are compared as the sets of their hashes

The hashes of a text ascend, which is what walking two lists side by side relies on.  On ascending
lists the walk counts what the sets share, and so do hash sets with the same members
(`ofSets_eq_ofAscending`).
-/

namespace CodeClones

namespace Overlap

variable {as bs : List UInt64}

/-- **Hash sets with the same members have the same overlap.** -/
theorem ofSets_eq_ofAscending (has : as.Pairwise (· < ·)) (hbs : bs.Pairwise (· < ·))
    {asSet bsSet : Std.HashSet UInt64} (h : ∀ hash, hash ∈ asSet ↔ hash ∈ as)
    (h' : ∀ hash, hash ∈ bsSet ↔ hash ∈ bs) : ofSets asSet bsSet = ofAscending as bs := by
  have hmembers : ∀ {set : Std.HashSet UInt64} {hashes : List UInt64},
      (∀ hash, hash ∈ set ↔ hash ∈ hashes) → set.toList.toFinset = hashes.toFinset := by
    intro set hashes hsame
    ext hash
    rw [List.mem_toFinset, Std.HashSet.mem_toList, hsame, List.mem_toFinset]
  rw [ofSets_eq, ofAscending_eq_jaccard has hbs, hmembers h, hmembers h']
  rfl

/-- **There is something to compare** unless both lists are empty. -/
theorem total_pos_iff (has : as.Pairwise (· < ·)) (hbs : bs.Pairwise (· < ·)) :
    0 < (ofAscending as bs).total ↔ ¬ (as = [] ∧ bs = []) := by
  rw [ofAscending_eq_jaccard has hbs]
  change 0 < (as.toFinset ∪ bs.toFinset).card ↔ _
  rw [Finset.card_pos, Finset.nonempty_iff_ne_empty, Ne, Finset.union_eq_empty,
    List.toFinset_eq_empty_iff, List.toFinset_eq_empty_iff]

end Overlap

open Overlap

/-- **The hashes of a text ascend, and two ascending lists are compared as sets.**  Whatever the
tokens, their kinds, the length of a shingle and whether names are renamed, the hashes of a text are
strictly ascending, and they are those of its shingles; hashes of characters are strictly ascending
as well.  Two strictly ascending lists walked side by side give what both sets have out of what
either has.  Hash sets with the same members give the same two counts, the order of the two lists
does not matter, and there is something to divide by unless both are empty. -/
theorem hashes_ascend_and_compare_as_sets :
    (∀ (size : Nat) (renames : Bool) (tokens : List String) (kinds : List TokenKind),
      ((Shingler.ofSize size renames).hashes tokens kinds).Pairwise (· < ·)
        ∧ ∀ hash, hash ∈ (Shingler.ofSize size renames).hashes tokens kinds
          ↔ ∃ shingle ∈ (Shingler.ofSize size renames).shingles tokens kinds, shingle.hash = hash)
      ∧ (∀ (size : Nat) (text : String), (Shingle.ofCharacters size text).Pairwise (· < ·))
      ∧ ∀ as bs : List UInt64, as.Pairwise (· < ·) → bs.Pairwise (· < ·) →
        (ofAscending as bs).shared = (as.toFinset ∩ bs.toFinset).card
        ∧ (ofAscending as bs).total = (as.toFinset ∪ bs.toFinset).card
        ∧ (∀ asSet bsSet : Std.HashSet UInt64, (∀ hash, hash ∈ asSet ↔ hash ∈ as) →
          (∀ hash, hash ∈ bsSet ↔ hash ∈ bs) → ofSets asSet bsSet = ofAscending as bs)
        ∧ ofAscending as bs = ofAscending bs as
        ∧ (0 < (ofAscending as bs).total ↔ ¬ (as = [] ∧ bs = [])) := by
  refine ⟨fun size renames tokens kinds => ⟨Shingler.pairwise_hashes _ _ _,
      fun hash => Shingler.mem_hashes_iff⟩, Shingle.pairwise_ofCharacters,
    fun as bs has hbs => ⟨?_, ?_, fun asSet bsSet => ofSets_eq_ofAscending has hbs,
      ofAscending_comm as bs, total_pos_iff has hbs⟩⟩
  · rw [ofAscending_eq_jaccard has hbs]
    rfl
  · rw [ofAscending_eq_jaccard has hbs]
    rfl

/-- Two lists of three, and the sets they fill. -/
theorem compare_as_sets_of_three :
    let as : List UInt64 := [1, 2, 3]
    let bs : List UInt64 := [2, 3, 4]
    let asSet : Std.HashSet UInt64 := .ofList [3, 1, 2]
    let bsSet : Std.HashSet UInt64 := .ofList [4, 3, 2, 3]
    as.Pairwise (· < ·) ∧ bs.Pairwise (· < ·)
      ∧ (ofAscending as bs).shared = 2 ∧ (ofAscending as bs).total = 4
      ∧ ofSets asSet bsSet = ofAscending as bs
      ∧ ofAscending as bs = ofAscending bs as ∧ 0 < (ofAscending as bs).total := by
  intro as bs asSet bsSet
  have has : as.Pairwise (· < ·) := by decide
  have hbs : bs.Pairwise (· < ·) := by decide
  have hmembers : ∀ entries words : List UInt64, entries ⊆ words → words ⊆ entries →
      ∀ hash, hash ∈ Std.HashSet.ofList entries ↔ hash ∈ words := fun entries words h h' hash => by
    rw [Std.HashSet.mem_ofList, List.contains_iff_mem]
    exact ⟨fun hmem => h hmem, fun hmem => h' hmem⟩
  have hasSet := hmembers [3, 1, 2] as (by decide) (by decide)
  have hbsSet := hmembers [4, 3, 2, 3] bs (by decide) (by decide)
  obtain ⟨-, -, hlists⟩ := hashes_ascend_and_compare_as_sets
  obtain ⟨hshared, htotal, hsets, hcomm, hpos⟩ := hlists as bs has hbs
  exact ⟨has, hbs, hshared.trans (by decide), htotal.trans (by decide), hsets _ _ hasSet hbsSet,
    hcomm, hpos.mpr fun hnone => absurd hnone.1 (by decide)⟩

end CodeClones
