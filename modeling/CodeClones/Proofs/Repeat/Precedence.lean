import CodeClones.Proofs.Repeat.Selection

/-!
# Proofs/Repeat/Precedence — the selection goes by length, then by words

The regions stand in the order of their suffixes (`pairwise_drop_lt`), and the sort by length is
stable (`pairwise_mergeSort_length`), so of two candidates the earlier one is longer, or as long and
repeats the smaller word (`pairwise_before`).  A candidate is selected exactly if one of its
occurrences is not mostly covered by selected regions before it (`mem_selected_iff`), which is a
recursion along the candidates (`forall_mem_of_before`).
-/

namespace CodeClones

namespace Repeat

/-! ## What one step of the selection asks -/

section Step

variable {size : Nat} {covered : Array Bool} {kept candidates : List Repeat}
  {candidate : Repeat}

theorem isFreshAt_iff {length position : Nat} (hshows : Shows size covered kept)
    (hsize : position + length ≤ size) :
    isFreshAt covered length position = true
      ↔ ¬ MostOf length fun t => ∃ r ∈ kept, r.Covers (position + t) := by
  have hspan := span_eq_map hsize
  have hcount : (span size length position).countP (fun p => covered[p]?.getD false)
      = (List.range length).countP fun t => decide (∃ r ∈ kept, r.Covers (position + t)) := by
    rw [hspan, List.countP_map]
    refine List.countP_congr fun t ht => ?_
    have hlt : position + t < size := by
      rw [List.mem_range] at ht
      omega
    have hiff := hshows.covered_iff hlt
    rw [Array.getElem?_eq_getElem (hshows.size_eq ▸ hlt), Option.some.injEq] at hiff
    rw [Function.comp_apply, Array.getElem?_eq_getElem (hshows.size_eq ▸ hlt), Option.getD_some,
      hiff, decide_eq_true_iff]
  rw [isFreshAt, hshows.size_eq, decide_eq_true_iff, mostOf_iff_countP, hcount, hspan,
    List.length_map, List.length_range, not_lt, Nat.mul_comm]

theorem isFresh_iff (hshows : Shows size covered kept)
    (hsize : ∀ i ∈ candidate.positions, i + candidate.length ≤ size) :
    isFresh covered candidate = true ↔ ∃ i ∈ candidate.positions,
      ¬ MostOf candidate.length fun t => ∃ r ∈ kept, r.Covers (i + t) := by
  rw [isFresh, List.any_eq_true]
  exact exists_congr fun i => and_congr_right fun hi => isFreshAt_iff hshows (hsize i hi)

/-- **What the selection keeps** — along a strict order of the candidates, those that are not mostly
covered by what was kept at the start or is kept before them. -/
theorem mem_select_iff {before : Repeat → Repeat → Prop}
    (hasymm : ∀ a b, before a b → ¬ before b a) (hshows : Shows size covered kept)
    (horder : candidates.Pairwise before)
    (hsize : ∀ r ∈ candidates, ∀ i ∈ r.positions, i + r.length ≤ size)
    (hmem : candidate ∈ candidates) :
    candidate ∈ select covered candidates ↔ ∃ i ∈ candidate.positions,
      ¬ MostOf candidate.length fun t =>
        ∃ r, (r ∈ kept ∨ r ∈ select covered candidates ∧ before r candidate)
          ∧ r.Covers (i + t) := by
  induction candidates generalizing covered kept with
  | nil => exact absurd hmem List.not_mem_nil
  | cons first rest ih =>
    obtain ⟨hfirst, horder⟩ := List.pairwise_cons.mp horder
    have hsize' := fun r hr => hsize r (List.mem_cons_of_mem first hr)
    have hirrefl : ¬ before first first := fun h => hasymm _ _ h h
    -- nothing that is kept later comes before the first candidate
    have hnone : ∀ r ∈ select covered (first :: rest), ¬ before r first := by
      intro r hr hbefore
      rcases List.mem_cons.mp ((select_sublist _ _).subset hr) with rfl | hr
      · exact hirrefl hbefore
      · exact hasymm _ _ hbefore (hfirst r hr)
    have hhead := isFresh_iff hshows (hsize first List.mem_cons_self)
    rcases List.mem_cons.mp hmem with rfl | hrest
    · have hset : ∀ q, (∃ r, (r ∈ kept ∨ r ∈ select covered (candidate :: rest)
          ∧ before r candidate) ∧ r.Covers q) ↔ ∃ r ∈ kept, r.Covers q := fun q =>
        exists_congr fun r => and_congr_left fun _ =>
          or_iff_left fun h => hnone r h.1 h.2
      simp only [hset, ← hhead]
      rw [select]
      split
      · next hfresh => exact iff_of_true List.mem_cons_self hfresh
      · next hstale =>
        exact iff_of_false
          (fun hkept => hirrefl (hfirst _ ((select_sublist _ _).subset hkept))) hstale
    · have hne : candidate ≠ first := fun heq => hirrefl (hfirst first (heq ▸ hrest))
      by_cases hfresh : isFresh covered first = true
      · rw [select, if_pos hfresh, List.mem_cons, or_iff_right hne,
          ih (hshows.cover first) horder hsize' hrest]
        refine exists_congr fun i => and_congr_right fun _ => not_congr (mostOf_congr fun t _ => ?_)
        refine exists_congr fun r => and_congr_left fun _ => ?_
        rw [List.mem_append, List.mem_singleton, List.mem_cons, or_and_right, or_assoc]
        refine or_congr_right (or_congr_left (iff_self_and.mpr ?_))
        rintro rfl
        exact hfirst candidate hrest
      · rw [select, if_neg hfresh]
        exact ih hshows horder hsize' hrest

end Step

/-! ## Words -/

/-- The word that a repeat repeats, read at its first position. -/
def word (text : Array Int) (found : Repeat) : List Int :=
  (text.toList.drop (found.positions.headD 0)).take found.length

theorem IsRegion.take_drop {text : Array Int} {least : Nat} {region : Repeat}
    (h : IsRegion text least region) {i : Nat} (hi : i ∈ region.positions) :
    (text.toList.drop i).take region.length = region.word text := by
  obtain ⟨first, rest, hpositions⟩ := List.exists_cons_of_ne_nil (List.ne_nil_of_mem hi)
  have hfirst : first ∈ region.positions := hpositions ▸ List.mem_cons_self
  rw [word, hpositions, List.headD_cons]
  exact (le_common_iff.mp (h.shared i hi first hfirst)).2.2

/-- **One repeat comes before another** if it is longer, or as long and its word is smaller. -/
def Before (text : Array Int) (a b : Repeat) : Prop :=
  b.length < a.length ∨ a.length = b.length ∧ a.word text < b.word text

theorem Before.asymm {text : Array Int} {a b : Repeat} (h : a.Before text b) :
    ¬ b.Before text a := by
  rintro (hlt | ⟨hlength, hword⟩)
  · rcases h with hlt' | ⟨hlength', -⟩
    · exact Nat.lt_asymm hlt hlt'
    · exact Nat.ne_of_lt hlt hlength'
  · rcases h with hlt' | ⟨-, hword'⟩
    · exact Nat.ne_of_lt hlt' hlength
    · exact lt_asymm hword hword'

/-- **Initial parts keep the order** unless they are equal. -/
theorem take_lt_take {as bs : List Int} {l : Nat} (h : as < bs) (hne : as.take l ≠ bs.take l) :
    as.take l < bs.take l := by
  induction l generalizing as bs with
  | zero => exact absurd rfl hne
  | succ l ih =>
    match as, bs with
    | _, [] => exact absurd h (List.not_lt_nil _)
    | [], b :: bs => exact List.nil_lt_cons _ _
    | a :: as, b :: bs =>
      rw [List.take_succ_cons, List.take_succ_cons] at hne ⊢
      rw [List.cons_lt_cons_iff] at h ⊢
      refine h.imp_right ?_
      rintro ⟨rfl, htail⟩
      exact ⟨rfl, ih htail fun heq => hne (by rw [heq])⟩

end Repeat

namespace RepeatTable

open Repeat

/-! ## The order of the regions -/

/-- **Runs are cut out one behind the other**, with an entry between them. -/
theorem pairwise_runs (least start : Nat) (entries : List Nat) :
    (runs least start entries).Pairwise fun a b => a.1 + a.2.length < b.1 := by
  fun_induction runs least start entries with
  | case1 => exact List.Pairwise.nil
  | case2 start entry entries hlt ih => exact ih
  | case3 start entry entries hge more ih =>
    refine List.pairwise_cons.mpr ⟨?_, ih⟩
    rintro ⟨s, run⟩ hmem
    obtain ⟨before, after, heq, rfl, hne, hrun, -, -⟩ := exists_of_mem_runs hmem
    have hpos : 0 < before.length := by
      rw [List.length_pos_iff]
      rintro rfl
      -- the entry that ended the run before would start this one
      obtain ⟨e, run, rfl⟩ := List.exists_cons_of_ne_nil hne
      have hlt : e < least := lt_of_head?_dropWhile (by rw [heq]; rfl)
      exact absurd (hrun e List.mem_cons_self) (Nat.not_le.mpr hlt)
    rw [List.length_cons]
    dsimp only
    omega

variable {text : Array Int} {least : Nat}

/-- **Regions stand in the order of their suffixes.** -/
theorem pairwise_drop_lt (hleast : 0 < least) :
    ((ofSuffixes (SuffixArray.ofText text)).regions least).Pairwise fun a b =>
      ∀ i ∈ a.positions, ∀ j ∈ b.positions, text.toList.drop i < text.toList.drop j := by
  have hsorted := Suffix.sorted_suffixArray text
  rw [regions, if_neg (by omega), List.pairwise_map]
  refine (pairwise_runs least 1 _).imp_of_mem ?_
  rintro ⟨s, run⟩ ⟨s', run'⟩ hmem hmem' hlt i hi j hj
  obtain ⟨b, rfl, -⟩ := exists_runAt hsorted hmem
  obtain ⟨b', rfl, -⟩ := exists_runAt hsorted hmem'
  obtain ⟨k, -, hk, hik⟩ := mem_positions_ofRun.mp hi
  obtain ⟨l, hl, -, hjl⟩ := mem_positions_ofRun.mp hj
  dsimp only at hlt
  exact drop_lt_of_place_lt hsorted hik hjl (by omega)

/-- **Regions of one length stand in the order of their words.** -/
theorem pairwise_word_lt (hleast : 0 < least) :
    ((ofSuffixes (SuffixArray.ofText text)).regions least).Pairwise fun a b =>
      a.length = b.length → a.word text < b.word text := by
  refine (pairwise_drop_lt hleast).imp_of_mem fun {a b} ha hb hdrop hlength => ?_
  have ha := isRegion_of_mem hleast ha
  have hb := isRegion_of_mem hleast hb
  obtain ⟨i, hi⟩ := List.exists_mem_of_length_pos (Nat.zero_lt_of_lt ha.two_le)
  obtain ⟨j, hj⟩ := List.exists_mem_of_length_pos (Nat.zero_lt_of_lt hb.two_le)
  rw [← ha.take_drop hi, ← hb.take_drop hj, ← hlength]
  refine take_lt_take (hdrop i hi j hj) fun heq => ?_
  -- a position of both regions would come before itself
  have hshared : a.length ≤ sharedAt text i j := by
    have hi' := (le_common_iff.mp (ha.shared i hi i hi)).1
    have hj' := (le_common_iff.mp (hb.shared j hj j hj)).1
    exact le_common_iff.mpr ⟨hi', hlength ▸ hj', heq⟩
  have hj' : j ∈ a.positions :=
    ha.closed i hi j (fun hij => lt_irrefl _ (hij ▸ hdrop i hi j hj))
      (ha.least_le.trans hshared)
  exact lt_irrefl _ (hdrop j hj' j hj)

/-! ## The order of the candidates -/

/-- The candidates for the selection, in their order. -/
def candidates (table : RepeatTable) (least : Int) : List Repeat :=
  (table.regions least).mergeSort fun a b => decide (b.length ≤ a.length)

theorem selected_eq_select (table : RepeatTable) (least : Int) :
    table.selected least
      = select (Array.replicate table.lengths.size false) (table.candidates least) :=
  rfl

/-- **Among repeats of one length the sort keeps what holds along the list.** -/
theorem pairwise_mergeSort_length {found : List Repeat} {rel : Repeat → Repeat → Prop}
    (h : found.Pairwise fun a b => a.length = b.length → rel a b) :
    (found.mergeSort fun a b => decide (b.length ≤ a.length)).Pairwise fun a b =>
      b.length < a.length ∨ a.length = b.length ∧ rel a b :=
  Order.pairwise_mergeSort_stable (fun r : Repeat => OrderDual.toDual r.length)
    (fun _ _ => decide_eq_true_iff) h

/-- **Candidates stand in their order** — longer ones first, then by words. -/
theorem pairwise_before (hleast : 0 < least) :
    ((ofSuffixes (SuffixArray.ofText text)).candidates least).Pairwise (Before text) :=
  pairwise_mergeSort_length (pairwise_word_lt hleast)

/-- **Recursion along the candidates** — what each one has if all before it do, all have. -/
theorem forall_mem_of_before {table : RepeatTable} {has : Repeat → Prop}
    (horder : (table.candidates least).Pairwise (Before text))
    (hstep : ∀ a ∈ table.regions least,
      (∀ b ∈ table.regions least, b.Before text a → has b) → has a) :
    ∀ a ∈ table.regions least, has a := by
  have hmem : ∀ {a}, a ∈ table.candidates least ↔ a ∈ table.regions least := List.mem_mergeSort
  suffices h : ∀ before after, before ++ after = table.candidates least →
      ∀ a ∈ before, has a from
    fun a ha => h _ [] (List.append_nil _) a (hmem.mpr ha)
  intro before
  induction before using List.reverseRecOn with
  | nil => exact fun _ _ _ h => absurd h List.not_mem_nil
  | append_singleton before c ih =>
    intro after heq a ha
    rw [List.append_assoc] at heq
    rcases List.mem_append.mp ha with ha | ha
    · exact ih _ heq a ha
    · obtain rfl := List.mem_singleton.mp ha
      refine hstep a (hmem.mp (heq ▸ by simp)) fun b hb hbefore => ih _ heq b ?_
      rw [← heq, List.pairwise_append, List.singleton_append, List.pairwise_cons] at horder
      rw [← hmem, ← heq, List.mem_append, List.singleton_append, List.mem_cons] at hb
      rcases hb with hb | rfl | hb
      · exact hb
      · exact absurd hbefore hbefore.asymm
      · exact absurd hbefore (horder.2.1.1 b hb).asymm

/-- **What is selected** — a region with an occurrence that is not mostly covered by selected
regions before it. -/
theorem mem_selected_iff (hleast : 0 < least) {region : Repeat} :
    region ∈ (ofSuffixes (SuffixArray.ofText text)).selected least
      ↔ region ∈ (ofSuffixes (SuffixArray.ofText text)).regions least
        ∧ ∃ i ∈ region.positions, ¬ MostOf region.length fun t =>
          ∃ r ∈ (ofSuffixes (SuffixArray.ofText text)).selected least,
            r.Before text region ∧ r.Covers (i + t) := by
  have hsize : ∀ r ∈ (ofSuffixes (SuffixArray.ofText text)).candidates least, ∀ i ∈ r.positions,
      i + r.length ≤ (ofSuffixes (SuffixArray.ofText text)).lengths.size := by
    intro r hr i hi
    rw [size_lengths]
    exact (isRegion_of_mem hleast (List.mem_mergeSort.mp hr)).add_length_le hi
  by_cases hmem : region ∈ (ofSuffixes (SuffixArray.ofText text)).regions least
  · rw [and_iff_right hmem, selected_eq_select,
      mem_select_iff (fun _ _ => Before.asymm) (shows_blank _) (pairwise_before hleast) hsize
        (List.mem_mergeSort.mpr hmem)]
    simp only [List.not_mem_nil, false_or, and_assoc]
  · exact iff_of_false (fun h => hmem (mem_regions_of_mem_selected h)) fun h => hmem h.1

end RepeatTable

end CodeClones
