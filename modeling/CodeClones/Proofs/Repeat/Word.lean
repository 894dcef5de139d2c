import CodeClones.Proofs.Repeat.Precedence
import CodeClones.Proofs.Suffix.Search

/-!
# Proofs/Repeat/Word — one repeat for each repeated word

The positions of a region are those of the word that any of them starts with, cut to the least
length (`IsRegion.positions_eq`), and its length is the greatest for which they agree
(`IsRegion.isGreatest`).  Regions have no position in common (`pairwise_disjoint`), so the sort by
positions orders them by their first ones (`pairwise_first_lt`), and no word has two of them.
-/

namespace CodeClones

namespace Repeat

/-! ## Where a word stands -/

/-- The positions at which a text reads a word, in ascending order. -/
def positionsOf (text : Array Int) (word : List Int) : List Nat :=
  (List.range text.size).filter fun i =>
    decide ((text.extract i (i + word.length)).toList = word)

section Word

variable {text : Array Int} {word : List Int} {i j : Nat}

theorem mem_positionsOf_iff (hword : word ≠ []) :
    i ∈ positionsOf text word ↔ i < text.size ∧ word <+: text.toList.drop i := by
  rw [positionsOf, List.mem_filter, List.mem_range, decide_eq_true_iff,
    SuffixArray.extract_eq_iff hword, and_iff_right_of_imp And.left]

theorem pairwise_positionsOf (text : Array Int) (word : List Int) :
    (positionsOf text word).Pairwise (· < ·) :=
  List.pairwise_lt_range.filter _

/-- Suffixes that start with a word share it. -/
theorem length_le_sharedAt (hi : word <+: text.toList.drop i) (hj : word <+: text.toList.drop j) :
    word.length ≤ sharedAt text i j :=
  le_common_iff.mpr ⟨hi.length_le, hj.length_le, by
    rw [← List.prefix_iff_eq_take.mp hi, ← List.prefix_iff_eq_take.mp hj]⟩

theorem prefix_of_length_le_sharedAt (hi : word <+: text.toList.drop i)
    (hshared : word.length ≤ sharedAt text i j) : word <+: text.toList.drop j := by
  rw [List.prefix_iff_eq_take, ← (le_common_iff.mp hshared).2.2]
  exact List.prefix_iff_eq_take.mp hi

/-- The word of so many symbols at a position. -/
theorem length_take_drop {least : Nat} (h : least ≤ sharedAt text i i) :
    ((text.toList.drop i).take least).length = least := by
  rw [sharedAt, common_self] at h
  rw [List.length_take, Nat.min_eq_left h]

end Word

/-! ## The word of a region -/

section Region

variable {text : Array Int} {least : Nat} {region : Repeat}

/-- **A region has all positions of its word.** -/
theorem IsRegion.mem_iff (h : IsRegion text least region) {word : List Int}
    (hlength : word.length = least) {i : Nat} (hi : i ∈ region.positions)
    (hword : word <+: text.toList.drop i) {j : Nat} :
    j ∈ region.positions ↔ j < text.size ∧ word <+: text.toList.drop j := by
  subst hlength
  constructor
  · intro hj
    refine ⟨h.within j hj, prefix_of_length_le_sharedAt hword ?_⟩
    exact h.least_le.trans (h.shared i hi j hj)
  · rintro ⟨-, hj⟩
    rcases eq_or_ne i j with rfl | hne
    · exact hi
    · exact h.closed i hi j hne (length_le_sharedAt hword hj)

/-- **The positions of a region are those of a word.** -/
theorem IsRegion.positions_eq (h : IsRegion text least region) (hleast : 0 < least)
    {word : List Int} (hlength : word.length = least) {i : Nat} (hi : i ∈ region.positions)
    (hword : word <+: text.toList.drop i) : region.positions = positionsOf text word := by
  refine h.ascending.eq_of_mem_iff (pairwise_positionsOf text word) fun j => ?_
  rw [h.mem_iff hlength hi hword, mem_positionsOf_iff (List.ne_nil_of_length_pos (by omega))]

/-- Every region has a word. -/
theorem IsRegion.exists_word (h : IsRegion text least region) (hleast : 0 < least) :
    ∃ word : List Int, word.length = least ∧ region.positions = positionsOf text word := by
  obtain ⟨i, hi⟩ := List.exists_mem_of_length_pos (Nat.zero_lt_of_lt h.two_le)
  have hlong := length_take_drop (h.least_le.trans (h.shared i hi i hi))
  exact ⟨_, hlong, h.positions_eq hleast hlong hi (List.take_prefix _ _)⟩

/-- **The length of a region is the greatest for which its positions agree.** -/
theorem IsRegion.isGreatest (h : IsRegion text least region) :
    IsGreatest {l | ∀ i ∈ region.positions, ∀ j ∈ region.positions, AgreeFor text i j l}
      region.length := by
  refine ⟨fun i hi j hj => agreeFor_iff.mpr (h.shared i hi j hj), fun l hl => ?_⟩
  obtain ⟨i, hi, j, hj, -, heq⟩ := h.tight
  rw [← heq]
  exact agreeFor_iff.mp (hl i hi j hj)

end Region

end Repeat

namespace RepeatTable

open Repeat

variable {text : Array Int} {least : Nat}

/-! ## The regions of all words -/

/-- **Every repeated word has a region.** -/
theorem exists_region_of_word {word : List Int} (hleast : 0 < least) (hlength : word.length = least)
    (htwice : 2 ≤ (positionsOf text word).length) :
    ∃ region ∈ (ofSuffixes (SuffixArray.ofText text)).regions least,
      region.positions = positionsOf text word := by
  have hword : word ≠ [] := List.ne_nil_of_length_pos (by omega)
  obtain ⟨i, hi⟩ := List.exists_mem_of_length_pos (Nat.zero_lt_of_lt htwice)
  obtain ⟨j, hj, hne⟩ := exists_ne_of_two_le (pairwise_positionsOf text word) htwice i
  obtain ⟨-, hi⟩ := (mem_positionsOf_iff hword).mp hi
  obtain ⟨-, hj⟩ := (mem_positionsOf_iff hword).mp hj
  obtain ⟨region, hmem, hmemi, -⟩ := exists_mem_regions hleast hne.symm
    (hlength ▸ length_le_sharedAt hi hj)
  exact ⟨region, hmem, (isRegion_of_mem hleast hmem).positions_eq hleast hlength hmemi hi⟩

/-- Different regions have no position in common. -/
theorem pairwise_disjoint (hleast : 0 < least) :
    ((ofSuffixes (SuffixArray.ofText text)).regions least).Pairwise fun a b =>
      ∀ i ∈ a.positions, i ∉ b.positions :=
  (pairwise_drop_lt hleast).imp fun hlt i hi hi' => lt_irrefl _ (hlt i hi i hi')

/-- **A region fills its range** of the sorted order. -/
theorem perm_range_of_mem {region : Repeat} (hleast : 0 < least)
    (h : region ∈ (ofSuffixes (SuffixArray.ofText text)).regions least) :
    region.first + region.positions.length = region.last ∧ region.last ≤ text.size
      ∧ region.positions.Perm
        ((Suffix.suffixArray text).extract region.first region.last).toList := by
  have hsorted := Suffix.sorted_suffixArray text
  obtain ⟨s, run, hmem, rfl⟩ := (mem_regions_iff hleast).mp h
  obtain ⟨b, rfl, hrun⟩ := exists_runAt hsorted hmem
  have hsize := hrun.lt_size
  refine ⟨?_, ?_, List.mergeSort_perm _ _⟩
  · change b + 1 - 1 + (List.mergeSort _ _).length = b + 1 + run.length
    rw [List.length_mergeSort, Array.length_toList, Array.size_extract]
    change b + 1 - 1 + (min _ (Suffix.suffixArray text).size - _) = _
    rw [size_of_sorted hsorted]
    omega
  · change b + 1 + run.length ≤ text.size
    omega

/-! ## All repeats by position -/

theorem mem_maximal_iff {table : RepeatTable} {least : Int} {found : Repeat} :
    found ∈ table.maximal least ↔ found ∈ table.regions least :=
  List.mem_mergeSort

/-- Lists in order whose first entries differ have these in order. -/
theorem head_lt_of_le {as bs : List Nat} (hle : as ≤ bs) (has : as ≠ []) (hbs : bs ≠ [])
    (hdisjoint : ∀ a ∈ as, a ∉ bs) : as.headD 0 < bs.headD 0 := by
  obtain ⟨a, as, rfl⟩ := List.exists_cons_of_ne_nil has
  obtain ⟨b, bs, rfl⟩ := List.exists_cons_of_ne_nil hbs
  rw [List.headD_cons, List.headD_cons]
  rcases Nat.lt_trichotomy a b with hlt | rfl | hgt
  · exact hlt
  · exact absurd List.mem_cons_self (hdisjoint a List.mem_cons_self)
  · exact absurd (List.cons_lt_cons_iff.mpr (Or.inl hgt)) (not_lt.mpr hle)

/-- **The repeats stand in the order of their first positions.** -/
theorem pairwise_first_lt (hleast : 0 < least) :
    ((ofSuffixes (SuffixArray.ofText text)).maximal least).Pairwise fun a b =>
      a.positions.headD 0 < b.positions.headD 0 := by
  have hsorted : ((ofSuffixes (SuffixArray.ofText text)).maximal least).Pairwise fun a b =>
      a.positions ≤ b.positions :=
    Order.pairwise_mergeSort_key positions
      (fun _ _ => Order.lexLe_eq_true_iff (fun _ _ => decide_eq_true_iff) _ _) _
  have hdisjoint : ((ofSuffixes (SuffixArray.ofText text)).maximal least).Pairwise fun a b =>
      ∀ i ∈ a.positions, i ∉ b.positions :=
    (List.mergeSort_perm _ _).symm.pairwise (pairwise_disjoint hleast)
      fun hab i hi hi' => hab i hi' hi
  refine (hsorted.and hdisjoint).imp_of_mem fun {a b} ha hb hab => ?_
  have hpositions : ∀ {found : Repeat},
      found ∈ (ofSuffixes (SuffixArray.ofText text)).maximal least → found.positions ≠ [] :=
    fun hmem => List.ne_nil_of_length_pos
      (Nat.zero_lt_of_lt (isRegion_of_mem hleast (mem_maximal_iff.mp hmem)).two_le)
  exact head_lt_of_le hab.1 (hpositions ha) (hpositions hb) hab.2

/-- **No two repeats have the same positions.** -/
theorem eq_of_positions_eq (hleast : 0 < least) {found other : Repeat}
    (hfound : found ∈ (ofSuffixes (SuffixArray.ofText text)).maximal least)
    (hother : other ∈ (ofSuffixes (SuffixArray.ofText text)).maximal least)
    (heq : found.positions = other.positions) : found = other := by
  have hnodup : (((ofSuffixes (SuffixArray.ofText text)).maximal least).map
      fun found => found.positions.headD 0).Nodup :=
    List.pairwise_map.mpr ((pairwise_first_lt hleast).imp Nat.ne_of_lt)
  exact List.inj_on_of_nodup_map hnodup hfound hother (congrArg (List.headD · 0) heq)

/-- **One repeat for each repeated word** — for every text and every least length `m` that is
positive, each word of `m` symbols that stands at two positions or more has exactly one repeat,
whose positions are all of the word's, and there is no other repeat.  The length of a repeat is the
greatest for which its positions agree, it fills its range of the sorted order, and the repeats come
in the order of their first positions.  For other lengths there is none. -/
theorem maximal_of_words (text : Array Int) :
    let suffixes := SuffixArray.ofText text
    let table := ofSuffixes suffixes
    (∀ m : Nat, 0 < m →
        (∀ word : List Int, word.length = m → 2 ≤ (positionsOf text word).length →
          ∃! found, found ∈ table.maximal m ∧ found.positions = positionsOf text word)
        ∧ (∀ found ∈ table.maximal m,
          (∃ word : List Int, word.length = m ∧ 2 ≤ (positionsOf text word).length
            ∧ found.positions = positionsOf text word)
          ∧ IsGreatest {l | ∀ i ∈ found.positions, ∀ j ∈ found.positions, AgreeFor text i j l}
            found.length
          ∧ found.first + found.positions.length = found.last ∧ found.last ≤ suffixes.size
          ∧ found.positions.Perm (suffixes.order.extract found.first found.last).toList)
        ∧ (table.maximal m).Pairwise fun a b => a.positions.headD 0 < b.positions.headD 0)
      ∧ ∀ m : Int, m ≤ 0 → table.maximal m = [] := by
  intro suffixes table
  refine ⟨fun m hm => ⟨fun word hlength htwice => ?_, fun found hfound => ?_,
    pairwise_first_lt hm⟩, fun m hm => ?_⟩
  · obtain ⟨region, hmem, hpositions⟩ := exists_region_of_word hm hlength htwice
    have hregion := mem_maximal_iff.mpr hmem
    exact ⟨region, ⟨hregion, hpositions⟩, fun other ⟨hother, heq⟩ =>
      eq_of_positions_eq hm hother hregion (heq.trans hpositions.symm)⟩
  · have hmem := mem_maximal_iff.mp hfound
    have hregion := isRegion_of_mem hm hmem
    obtain ⟨word, hlength, hpositions⟩ := hregion.exists_word hm
    obtain ⟨hfills, hlast, hperm⟩ := perm_range_of_mem hm hmem
    refine ⟨⟨word, hlength, hpositions ▸ hregion.two_le, hpositions⟩, hregion.isGreatest, hfills,
      ?_, hperm⟩
    rwa [← size_of_sorted (Suffix.sorted_suffixArray text)] at hlast
  · change (table.regions m).mergeSort _ = []
    rw [regions, if_pos hm, List.mergeSort_nil]

/-- The word `a n` stands at two positions of `b a n a n a`, and its repeat is `a n a`. -/
theorem maximal_of_words_of_banana :
    0 < 2 ∧ ([1, 3] : List Int).length = 2
      ∧ positionsOf #[2, 1, 3, 1, 3, 1] [1, 3] = [1, 3]
      ∧ (∃ found, found ∈ (ofSuffixes (SuffixArray.ofText #[2, 1, 3, 1, 3, 1])).maximal (2 : Nat)
        ∧ found.positions = [1, 3] ∧ found.length = 3)
      ∧ (ofSuffixes (SuffixArray.ofText #[2, 1, 3, 1, 3, 1])).maximal 0 = [] := by
  have hpositions : positionsOf #[2, 1, 3, 1, 3, 1] [1, 3] = [1, 3] := by decide +kernel
  obtain ⟨hpositive, hnone⟩ := maximal_of_words #[2, 1, 3, 1, 3, 1]
  obtain ⟨hword, hfound, -⟩ := hpositive 2 (by decide)
  obtain ⟨found, ⟨hmem, hat⟩, -⟩ := hword [1, 3] rfl (by rw [hpositions]; decide)
  rw [hpositions] at hat
  obtain ⟨-, hgreatest, -⟩ := hfound found hmem
  rw [hat] at hgreatest
  refine ⟨by decide, rfl, hpositions, ⟨found, hmem, hat, ?_⟩, hnone 0 (by decide)⟩
  have hthree : IsGreatest {l | ∀ i ∈ [1, 3], ∀ j ∈ [1, 3],
      AgreeFor #[2, 1, 3, 1, 3, 1] i j l} 3 := by
    have hshared : ∀ i ∈ [1, 3], ∀ j ∈ [1, 3],
        3 ≤ common (([2, 1, 3, 1, 3, 1] : List Int).drop i) ([2, 1, 3, 1, 3, 1].drop j) := by
      decide
    refine ⟨fun i hi j hj => agreeFor_iff.mpr (hshared i hi j hj), fun l hl => ?_⟩
    exact (agreeFor_iff.mp (hl 1 (by decide) 3 (by decide))).trans (by decide)
  exact hgreatest.unique hthree

end RepeatTable

end CodeClones
