import CodeClones.Similarity.Overlap
import CodeClones.Proofs.Similarity.Double

/-!
# Proofs/Similarity/Overlap — walking two ascending lists counts what the sets share

A set of words is kept as its strictly ascending list.  Walking two of them side by side counts the
common words, so the overlap of the lists is the Jaccard similarity of the sets
(`ofAscending_eq_jaccard`).
-/

namespace CodeClones.Overlap

/-- **Jaccard similarity of two sets** — what they share out of what either has. -/
def jaccard (as bs : Finset UInt64) : Overlap where
  shared := (as ∩ bs).card
  total := (as ∪ bs).card

theorem commonCount_comm (as bs : List UInt64) : commonCount as bs = commonCount bs as := by
  fun_induction commonCount as bs with
  | case1 bs => cases bs <;> rw [commonCount]
  | case2 a as => rw [commonCount]
  | case3 as b bs ih => rw [commonCount, if_pos rfl, ih]
  | case4 a as b bs hne hlt ih =>
    rw [commonCount, if_neg (Ne.symm hne), if_neg (UInt64.lt_asymm hlt), ih]
  | case5 a as b bs hne hge ih =>
    have hlt : b < a := UInt64.lt_of_le_of_ne (UInt64.not_lt.mp hge) (Ne.symm hne)
    rw [commonCount, if_neg (Ne.symm hne), if_pos hlt, ih]

theorem ofAscending_comm (as bs : List UInt64) : ofAscending as bs = ofAscending bs as := by
  rw [ofAscending, ofAscending, commonCount_comm, Nat.add_comm]

/-- What is below an ascending list is not in it. -/
theorem notMem_toFinset {a b : UInt64} {bs : List UInt64} (hab : a < b)
    (hbs : (b :: bs).Pairwise (· < ·)) : a ∉ (b :: bs).toFinset := by
  rw [List.mem_toFinset]
  intro ha
  rcases List.mem_cons.mp ha with rfl | ha
  · exact UInt64.lt_irrefl _ hab
  · exact UInt64.lt_asymm hab (List.rel_of_pairwise_cons hbs ha)

/-- **Walking side by side counts the common words.** -/
theorem commonCount_eq {as bs : List UInt64} (has : as.Pairwise (· < ·))
    (hbs : bs.Pairwise (· < ·)) : commonCount as bs = (as.toFinset ∩ bs.toFinset).card := by
  fun_induction commonCount as bs with
  | case1 bs => rfl
  | case2 a as => rw [List.toFinset_nil, Finset.inter_empty, Finset.card_empty]
  | case3 as b bs ih =>
    obtain ⟨hb, has⟩ := List.pairwise_cons.mp has
    have hnew : b ∉ as.toFinset ∩ bs.toFinset := fun hmem =>
      UInt64.lt_irrefl b (hb b (List.mem_toFinset.mp (Finset.mem_inter.mp hmem).1))
    rw [ih has hbs.of_cons, List.toFinset_cons, List.toFinset_cons, ← Finset.insert_inter_distrib,
      Finset.card_insert_of_notMem hnew]
  | case4 a as b bs hne hlt ih =>
    rw [ih has.of_cons hbs, List.toFinset_cons (l := as),
      Finset.insert_inter_of_notMem (notMem_toFinset hlt hbs)]
  | case5 a as b bs hne hge ih =>
    have hlt : b < a := UInt64.lt_of_le_of_ne (UInt64.not_lt.mp hge) (Ne.symm hne)
    rw [ih has hbs.of_cons, List.toFinset_cons (l := bs),
      Finset.inter_insert_of_notMem (notMem_toFinset hlt has)]

/-- **The overlap of two ascending lists is that of their sets.** -/
theorem ofAscending_eq_jaccard {as bs : List UInt64} (has : as.Pairwise (· < ·))
    (hbs : bs.Pairwise (· < ·)) : ofAscending as bs = jaccard as.toFinset bs.toFinset := by
  have hcount := commonCount_eq has hbs
  have hlength : ∀ {words : List UInt64}, words.Pairwise (· < ·) →
      words.toFinset.card = words.length := fun h =>
    List.toFinset_card_of_nodup (h.imp UInt64.ne_of_lt)
  rw [ofAscending, jaccard, Finset.card_union, hlength has, hlength hbs, hcount]

/-- There are not many words. -/
theorem card_words_lt (words : Finset UInt64) : words.card < 2 ^ 100 := by
  have hle : words.card ≤ (Finset.range (2 ^ 64)).card :=
    Finset.card_le_card_of_injOn UInt64.toNat
      (fun word _ => Finset.mem_coe.mpr (Finset.mem_range.mpr word.toNat_lt))
      fun a _ b _ hab => UInt64.toNat_inj.mp hab
  rw [Finset.card_range] at hle
  exact Nat.lt_of_le_of_lt hle (by decide)

theorem isNumber_jaccard (as bs : Finset UInt64) : Double.IsNumber (jaccard as bs).toFloat :=
  Double.isNumber_toFloat (Finset.card_le_card Finset.inter_subset_union) (card_words_lt (as ∪ bs))

/-- **A set that is not empty is fully similar to itself.** -/
theorem jaccard_self {words : Finset UInt64} (h : words.Nonempty) :
    (jaccard words words).toFloat = 1 := by
  rw [jaccard, Finset.inter_self, Finset.union_self]
  exact Double.toFloat_full h.card_pos (card_words_lt words)

end CodeClones.Overlap
