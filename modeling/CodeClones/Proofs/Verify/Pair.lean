import CodeClones.Proofs.Index.Candidates
import CodeClones.Verify.Pair

/-!
# Proofs/Verify/Pair — verified pairs are settled by their numbers

In a table that keeps every document under its own number, a verified pair has the numbers of the
candidate it comes from (`numbers_of_verify?`), and so is settled by them.  Sorting by numbers
therefore leaves no choice, however unstable it is: `eq_verifyAll` says that verified pairs found in
any order and brought into ascending order are what verification in order gives.
-/

namespace CodeClones

/-- **Every document is kept under its own number.** -/
def DocumentTable.Own (documents : DocumentTable) : Prop :=
  ∀ ⦃id : DocumentId⦄ ⦃document : Document⦄, documents[id]? = some document → document.id = id

theorem DocumentTable.own_ofList (documents : List Document) :
    (DocumentTable.ofList documents).Own := by
  refine List.foldlRecOn (motive := DocumentTable.Own) documents _ ?_ ?_
  · intro id document h
    rw [Std.HashMap.getElem?_empty] at h
    exact absurd h (Option.some_ne_none document).symm
  · intro table htable document _ id found h
    rw [Std.HashMap.getElem?_insert] at h
    split at h
    · next heq => exact Option.some.inj h ▸ eq_of_beq heq
    · exact htable h

/-- **Where numbers are distinct, each number finds its document.** -/
theorem DocumentTable.getElem?_ofList_iff {documents : List Document}
    (hids : (documents.map Document.id).Nodup) {id : DocumentId} {document : Document} :
    (DocumentTable.ofList documents)[id]? = some document
      ↔ document ∈ documents ∧ document.id = id := by
  induction documents using List.reverseRecOn with
  | nil => simp [DocumentTable.ofList]
  | append_singleton documents last ih =>
    rw [List.map_append, List.nodup_append] at hids
    obtain ⟨hids, -, hnew⟩ := hids
    rw [DocumentTable.ofList, List.foldl_append, ← DocumentTable.ofList, List.foldl_cons,
      List.foldl_nil, Std.HashMap.getElem?_insert, List.mem_append, List.mem_singleton]
    split
    · next heq =>
      have hid := eq_of_beq heq
      rw [Option.some_inj]
      refine ⟨fun hlast => ⟨Or.inr hlast.symm, hlast ▸ hid⟩, fun ⟨hmem, hdocument⟩ => ?_⟩
      refine (hmem.resolve_left fun hmem => ?_).symm
      exact hnew _ (List.mem_map_of_mem hmem) _ (List.mem_singleton_self _)
        (hdocument.trans hid.symm)
    · next hne =>
      rw [ih hids]
      refine ⟨fun ⟨hmem, hid⟩ => ⟨Or.inl hmem, hid⟩, fun ⟨hmem, hid⟩ => ⟨?_, hid⟩⟩
      refine hmem.resolve_right ?_
      rintro rfl
      exact hne (beq_iff_eq.mpr hid)

namespace VerifiedPair

/-- The numbers of a verified pair. -/
def numbers (verified : VerifiedPair) : DocumentPair where
  first := verified.first.id
  second := verified.second.id

theorem le_eq_numbers (a b : VerifiedPair) : a.le b = a.numbers.le b.numbers := by
  rw [Bool.eq_iff_iff, Index.pair_le_iff, le, numbers, numbers]
  dsimp only
  split
  · next heq =>
    rw [decide_eq_true_iff, UInt32.le_iff_toNat_le, heq]
    omega
  · next hne =>
    rw [← UInt32.toNat_inj] at hne
    rw [decide_eq_true_iff, UInt32.lt_iff_toNat_lt]
    omega

theorem pairwise_sort (pairs : List VerifiedPair) :
    (sort pairs).Pairwise fun a b => a.le b = true := by
  refine List.pairwise_mergeSort (fun a b c => ?_) (fun a b => ?_) pairs
  · rw [le_eq_numbers, le_eq_numbers, le_eq_numbers]
    exact Index.pair_le_trans _ _ _
  · rw [le_eq_numbers, le_eq_numbers]
    exact Index.pair_le_total _ _

/-- **Sorting changes nothing** exactly where pairs are in ascending order. -/
theorem sort_eq_self_iff {pairs : List VerifiedPair} :
    sort pairs = pairs ↔ pairs.Pairwise fun a b => a.le b = true :=
  ⟨fun h => h ▸ pairwise_sort pairs, List.mergeSort_of_pairwise⟩

/-- **Any sort by numbers gives the same list**, where pairs are settled by their numbers. -/
theorem eq_sort {found sorted : List VerifiedPair}
    (hnumbers : ∀ a ∈ found, ∀ b ∈ found, a.numbers = b.numbers → a = b)
    (hperm : sorted.Perm found) (hsorted : sorted.Pairwise fun a b => a.le b = true) :
    sorted = sort found := by
  have hfound : (sort found).Perm found := List.mergeSort_perm found _
  refine List.Perm.eq_of_pairwise (fun a b ha hb hab hba => ?_) hsorted (pairwise_sort found)
    (hperm.trans hfound.symm)
  rw [le_eq_numbers] at hab hba
  exact hnumbers a (hperm.mem_iff.mp ha) b (hfound.mem_iff.mp hb)
    (Index.pair_le_antisymm _ _ hab hba)

end VerifiedPair

namespace Verifier

open VerifiedPair

/-- **When a candidate pair is verified**: both documents are known, they do not overlap in lines
of one file, and their similarity is not below the minimum. -/
theorem verify?_eq_some_iff {verifier : Verifier} {documents : DocumentTable}
    {pair : DocumentPair} {verified : VerifiedPair} :
    verifier.verify? documents pair = some verified
      ↔ documents[pair.first]? = some verified.first
        ∧ documents[pair.second]? = some verified.second
        ∧ ¬verified.first.overlapsInFile verified.second = true
        ∧ ¬verified.similarity < verifier.minimum
        ∧ verified.similarity = (verified.first.overlap verified.second).toFloat := by
  obtain ⟨x, y, similarity⟩ := verified
  rw [verify?]
  split
  · next a b ha hb =>
    rw [ha, hb, Option.some_inj, Option.some_inj]
    dsimp only
    split
    · grind
    · split <;> grind
  · next hnone =>
    refine iff_of_false (Option.some_ne_none _).symm fun h => ?_
    exact hnone x y h.1 h.2.1

theorem perm_verifyAll (verifier : Verifier) (documents : DocumentTable)
    (pairs : List DocumentPair) :
    (verifier.verifyAll documents pairs).Perm (pairs.filterMap (verifier.verify? documents)) :=
  List.mergeSort_perm _ _

section Own

variable {verifier : Verifier} {documents : DocumentTable} (hown : documents.Own)

include hown

/-- **A verified pair has the numbers of its candidate.** -/
theorem numbers_of_verify? {pair : DocumentPair} {verified : VerifiedPair}
    (h : verifier.verify? documents pair = some verified) : verified.numbers = pair := by
  obtain ⟨hfirst, hsecond, -⟩ := verify?_eq_some_iff.mp h
  rw [numbers, hown hfirst, hown hsecond]

theorem map_numbers_filterMap (pairs : List DocumentPair) :
    (pairs.filterMap (verifier.verify? documents)).map numbers
      = pairs.filter fun pair => (verifier.verify? documents pair).isSome := by
  induction pairs with
  | nil => rfl
  | cons pair pairs ih =>
    cases hverify : verifier.verify? documents pair with
    | none => simpa [hverify] using ih
    | some verified => simpa [hverify, numbers_of_verify? hown hverify] using ih

/-- **What is verified** is what its own candidate gives. -/
theorem mem_verifyAll_iff {pairs : List DocumentPair} {verified : VerifiedPair} :
    verified ∈ verifier.verifyAll documents pairs
      ↔ verified.numbers ∈ pairs
        ∧ verifier.verify? documents verified.numbers = some verified := by
  rw [(perm_verifyAll _ _ _).mem_iff, List.mem_filterMap]
  constructor
  · rintro ⟨pair, hpair, hverify⟩
    obtain rfl := numbers_of_verify? hown hverify
    exact ⟨hpair, hverify⟩
  · intro h
    exact ⟨_, h⟩

/-- **No pair is verified twice**, if there are no two equal candidates. -/
theorem nodup_verifyAll {pairs : List DocumentPair} (hpairs : pairs.Nodup) :
    ((verifier.verifyAll documents pairs).map numbers).Nodup := by
  rw [((perm_verifyAll _ _ _).map _).nodup_iff, map_numbers_filterMap hown]
  exact hpairs.filter _

/-- **Any sort of the verified pairs**, found in any order, gives what verification in order
gives. -/
theorem eq_verifyAll {pairs : List DocumentPair} {sorted : List VerifiedPair}
    (hperm : sorted.Perm (pairs.filterMap (verifier.verify? documents)))
    (hsorted : sorted.Pairwise fun a b => a.le b = true) :
    sorted = verifier.verifyAll documents pairs := by
  refine eq_sort (fun a ha b hb heq => ?_) hperm hsorted
  obtain ⟨pair, -, ha⟩ := List.mem_filterMap.mp ha
  obtain ⟨pair', -, hb⟩ := List.mem_filterMap.mp hb
  rw [numbers_of_verify? hown ha, numbers_of_verify? hown hb] at heq
  exact Option.some.inj (ha.symm.trans (heq ▸ hb))

theorem sort_eq_verifyAll {pairs : List DocumentPair} {found : List VerifiedPair}
    (hperm : found.Perm (pairs.filterMap (verifier.verify? documents))) :
    VerifiedPair.sort found = verifier.verifyAll documents pairs :=
  eq_verifyAll hown ((List.mergeSort_perm found _).trans hperm) (pairwise_sort found)

theorem verifyAll_of_perm {pairs pairs' : List DocumentPair} (hperm : pairs.Perm pairs') :
    verifier.verifyAll documents pairs = verifier.verifyAll documents pairs' :=
  sort_eq_verifyAll hown (hperm.filterMap _)

/-- **Verified pairs keep the order of their candidates** exactly where the candidates that are
verified are in ascending order. -/
theorem verifyAll_eq_filterMap_iff {pairs : List DocumentPair} :
    verifier.verifyAll documents pairs = pairs.filterMap (verifier.verify? documents)
      ↔ (pairs.filter fun pair => (verifier.verify? documents pair).isSome).Pairwise
        fun p q => p.le q = true := by
  rw [verifyAll, sort_eq_self_iff, ← map_numbers_filterMap hown, List.pairwise_map]
  simp only [le_eq_numbers]

end Own

/-! ## Documents alike -/

/-- Three documents with one and the same shingle, each in a file of its own. -/
def threeAlike : List Document :=
  [⟨1, "a", 1, 4, 4, [5]⟩, ⟨2, "b", 1, 4, 4, [5]⟩, ⟨3, "c", 1, 4, 4, [5]⟩]

theorem verify?_threeAlike {a b : Document} (ha : a ∈ threeAlike) (hb : b ∈ threeAlike)
    (hfiles : a.file ≠ b.file) :
    (ofMinimum 0.5).verify? (DocumentTable.ofList threeAlike) ⟨a.id, b.id⟩
      = some ⟨a, b, (a.overlap b).toFloat⟩ := by
  have hids : (threeAlike.map Document.id).Nodup := by decide
  have hhashes : ∀ document ∈ threeAlike, document.hashes = [5] := by decide
  refine verify?_eq_some_iff.mpr ⟨(DocumentTable.getElem?_ofList_iff hids).mpr ⟨ha, rfl⟩,
    (DocumentTable.getElem?_ofList_iff hids).mpr ⟨hb, rfl⟩, ?_, ?_, rfl⟩
  · simp [Document.overlapsInFile, hfiles]
  · rw [Document.overlap, hhashes a ha, hhashes b hb]
    change ¬(Overlap.ofAscending [5] [5]).toFloat < (ofMinimum 0.5).minimum
    decide +kernel

/-- Every pair of them is verified. -/
theorem map_numbers_threeAlike {pairs : List DocumentPair}
    (hpairs : ∀ pair ∈ pairs, pair ∈ ([⟨1, 2⟩, ⟨1, 3⟩, ⟨2, 3⟩] : List DocumentPair)) :
    (pairs.filterMap ((ofMinimum 0.5).verify? (DocumentTable.ofList threeAlike))).map numbers
      = pairs := by
  have hall : ∀ pair ∈ ([⟨1, 2⟩, ⟨1, 3⟩, ⟨2, 3⟩] : List DocumentPair),
      ∃ a ∈ threeAlike, ∃ b ∈ threeAlike, a.file ≠ b.file ∧ pair = ⟨a.id, b.id⟩ := by decide
  rw [map_numbers_filterMap (DocumentTable.own_ofList threeAlike), List.filter_eq_self]
  intro pair hpair
  obtain ⟨a, ha, b, hb, hfiles, rfl⟩ := hall pair (hpairs pair hpair)
  rw [verify?_threeAlike ha hb hfiles]
  rfl

/-- In ascending order they are verified in that order. -/
theorem map_numbers_verifyAll_threeAlike {pairs : List DocumentPair}
    (hpairs : pairs.Sublist [⟨1, 2⟩, ⟨1, 3⟩, ⟨2, 3⟩]) :
    ((ofMinimum 0.5).verifyAll (DocumentTable.ofList threeAlike) pairs).map numbers = pairs := by
  have hascending : ([⟨1, 2⟩, ⟨1, 3⟩, ⟨2, 3⟩] : List DocumentPair).Pairwise
      fun p q => p.le q = true := by decide
  rw [(verifyAll_eq_filterMap_iff (DocumentTable.own_ofList threeAlike)).mpr
    (hascending.sublist (List.filter_sublist.trans hpairs))]
  exact map_numbers_threeAlike fun pair hpair => hpairs.subset hpair

theorem length_threeAlike {pairs : List DocumentPair}
    (hpairs : ∀ pair ∈ pairs, pair ∈ ([⟨1, 2⟩, ⟨1, 3⟩, ⟨2, 3⟩] : List DocumentPair)) :
    (pairs.filterMap ((ofMinimum 0.5).verify? (DocumentTable.ofList threeAlike))).length
      = pairs.length := by
  rw [← List.length_map numbers, map_numbers_threeAlike hpairs]

end Verifier

end CodeClones
