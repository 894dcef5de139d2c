import CodeClones.Proofs.Order.Table
import CodeClones.Proofs.Suffix.Alphabet
import CodeClones.Repeat.CommonPrefix

/-!
# Proofs/Repeat/CommonPrefix — the scan finds what neighbouring suffixes share

`common` counts the symbols two lists share at the start.  Between two lists in the order there is
none that shares less with either (`common_le_of_between`).  So when the scan moves on by one
symbol, the suffix that matched so far, now one symbol shorter, lies at or before the new neighbour,
and the new match is at most one symbol shorter (`Scanned.step`).  What the scan carries over is
therefore never more than what is shared, and the lengths it finds are the greatest there are
(`commonLengths_greatest`).
-/

namespace CodeClones.Repeat

/-- An invariant of a loop over the numbers below `n`, indexed by the number of rounds. -/
theorem foldl_range {σ : Type} {step : σ → Nat → σ} {n : Nat} {s : σ} (inv : Nat → σ → Prop)
    (hstart : inv 0 s) (hstep : ∀ t < n, ∀ s, inv t s → inv (t + 1) (step s t)) :
    inv n ((List.range n).foldl step s) := by
  induction n with
  | zero => exact hstart
  | succ n ih =>
    rw [List.range_succ, List.foldl_append]
    exact hstep n (Nat.lt_succ_self n) _ (ih fun t ht => hstep t (Nat.lt_succ_of_lt ht))

/-! ## What two lists share -/

section Common

variable {α : Type} [DecidableEq α]

/-- How many symbols two lists share at the start. -/
def common : List α → List α → Nat
  | a :: as, b :: bs => if a = b then common as bs + 1 else 0
  | _, _ => 0

variable {as bs cs : List α} {l : Nat}

@[simp] theorem common_nil_left (bs : List α) : common [] bs = 0 := by rw [common]; simp

@[simp] theorem common_nil_right (as : List α) : common as [] = 0 := by rw [common]; simp

@[simp] theorem common_cons_cons (a b : α) (as bs : List α) :
    common (a :: as) (b :: bs) = if a = b then common as bs + 1 else 0 := by rw [common]

theorem common_comm (as bs : List α) : common as bs = common bs as := by
  induction as generalizing bs with
  | nil => rw [common_nil_left, common_nil_right]
  | cons a as ih =>
    match bs with
    | [] => rw [common_nil_left, common_nil_right]
    | b :: bs =>
      rw [common_cons_cons, common_cons_cons, ih bs]
      simp only [eq_comm]

/-- **Sharing as equality of initial parts.** -/
theorem le_common_iff :
    l ≤ common as bs ↔ l ≤ as.length ∧ l ≤ bs.length ∧ as.take l = bs.take l := by
  induction l generalizing as bs with
  | zero => simp
  | succ l ih =>
    match as, bs with
    | [], _ => simp
    | _ :: _, [] => simp
    | a :: as, b :: bs =>
      rw [common_cons_cons, List.length_cons, List.length_cons, List.take_succ_cons,
        List.take_succ_cons, List.cons.injEq]
      split
      · next heq =>
        rw [Nat.add_le_add_iff_right, ih, Nat.add_le_add_iff_right, Nat.add_le_add_iff_right]
        simp only [heq, true_and]
      · next hne => simp [hne]

theorem le_common_trans (hab : l ≤ common as bs) (hbc : l ≤ common bs cs) : l ≤ common as cs := by
  obtain ⟨ha, -, htake⟩ := le_common_iff.mp hab
  obtain ⟨-, hc, htake'⟩ := le_common_iff.mp hbc
  exact le_common_iff.mpr ⟨ha, hc, htake.trans htake'⟩

theorem common_eq_add_drop (h : l ≤ common as bs) :
    common as bs = l + common (as.drop l) (bs.drop l) := by
  induction l generalizing as bs with
  | zero => simp
  | succ l ih =>
    match as, bs with
    | [], _ => simp at h
    | _ :: _, [] => simp at h
    | a :: as, b :: bs =>
      rw [common_cons_cons] at h ⊢
      split
      · next heq =>
        rw [if_pos heq, Nat.add_le_add_iff_right] at h
        rw [ih h, List.drop_succ_cons, List.drop_succ_cons]
        omega
      · next hne =>
        rw [if_neg hne] at h
        omega

/-- **What lies between shares at least as much.** -/
theorem common_le_of_between [LinearOrder α] (hab : ¬ bs < as) (hbc : ¬ cs < bs) :
    common as cs ≤ common bs cs := by
  induction as generalizing bs cs with
  | nil => rw [common_nil_left]; exact Nat.zero_le _
  | cons a as ih =>
    match bs, cs with
    | _, [] => rw [common_nil_right]; exact Nat.zero_le _
    | [], c :: cs => exact absurd (List.nil_lt_cons a as) hab
    | b :: bs, c :: cs =>
      rw [List.cons_lt_cons_iff, not_or, not_and] at hab hbc
      rw [common_cons_cons]
      split
      · next heq =>
        subst heq
        obtain rfl : b = a := le_antisymm (not_lt.mp hbc.1) (not_lt.mp hab.1)
        rw [common_cons_cons, if_pos rfl]
        exact Nat.succ_le_succ (ih (hab.2 rfl) (hbc.2 rfl))
      · exact Nat.zero_le _

theorem common_le_of_between_left [LinearOrder α] (hab : ¬ bs < as) (hbc : ¬ cs < bs) :
    common as cs ≤ common as bs :=
  le_common_trans (Nat.le_refl _) ((common_comm cs bs).symm ▸ common_le_of_between hab hbc)

@[simp] theorem common_self (as : List α) : common as as = as.length := by
  induction as with
  | nil => rw [common_nil_left, List.length_nil]
  | cons a as ih => rw [common_cons_cons, if_pos rfl, ih, List.length_cons]

theorem common_le_length (as bs : List α) : common as bs ≤ as.length :=
  (le_common_iff.mp (Nat.le_refl _)).1

end Common

/-! ## Matching two suffixes -/

theorem agreement_eq_add (text : Array Int) (i j known : Nat) :
    agreement text i j known
      = known + common (text.toList.drop (i + known)) (text.toList.drop (j + known)) := by
  fun_induction agreement text i j known with
  | case1 known h heq ih =>
    rw [ih, List.drop_eq_getElem_cons (i := i + known) (by simpa using h.1),
      List.drop_eq_getElem_cons (i := j + known) (by simpa using h.2), common_cons_cons,
      if_pos (by simpa using heq)]
    simp only [Nat.add_assoc]
    omega
  | case2 known h hne =>
    rw [List.drop_eq_getElem_cons (i := i + known) (by simpa using h.1),
      List.drop_eq_getElem_cons (i := j + known) (by simpa using h.2), common_cons_cons,
      if_neg (by simpa using hne), Nat.add_zero]
  | case3 known h =>
    rcases not_and_or.mp h with h | h
    · rw [List.drop_eq_nil_of_le (show text.toList.length ≤ i + known by simpa using h),
        common_nil_left, Nat.add_zero]
    · rw [List.drop_eq_nil_of_le (show text.toList.length ≤ j + known by simpa using h),
        common_nil_right, Nat.add_zero]

/-- **Matching resumes where the suffixes are known to agree.** -/
theorem agreement_eq_common {text : Array Int} {i j known : Nat}
    (h : known ≤ common (text.toList.drop i) (text.toList.drop j)) :
    agreement text i j known = common (text.toList.drop i) (text.toList.drop j) := by
  rw [agreement_eq_add, common_eq_add_drop h, List.drop_drop, List.drop_drop]

/-! ## The places of a sorted order -/

section Order

variable {text : Array Int} {order : Array Nat} {i j k l : Nat}
  (hsorted : Suffix.Sorted (fun a b => decide (a < b)) text order)

include hsorted

theorem size_of_sorted : order.size = text.size := by
  have hlength := hsorted.complete.length_eq
  rwa [List.length_range, Array.length_toList] at hlength

theorem lt_of_sorted (hi : order[k]? = some i) : i < text.size := by
  rw [← List.mem_range, ← hsorted.complete.mem_iff]
  rw [← Array.getElem?_toList] at hi
  exact List.mem_of_getElem? hi

theorem exists_place (hi : i < text.size) : ∃ k : Nat, order[k]? = some i := by
  rw [← List.mem_range, ← hsorted.complete.mem_iff] at hi
  obtain ⟨k, hk⟩ := List.mem_iff_getElem?.mp hi
  exact ⟨k, by rwa [← Array.getElem?_toList]⟩

theorem drop_lt_of_place_lt (hi : order[k]? = some i) (hj : order[l]? = some j) (hlt : k < l) :
    text.toList.drop i < text.toList.drop j := by
  rw [← Array.getElem?_toList] at hi hj
  obtain ⟨hk, rfl⟩ := List.getElem?_eq_some_iff.mp hi
  obtain ⟨hl, rfl⟩ := List.getElem?_eq_some_iff.mp hj
  exact Suffix.intBefore_iff.mp (List.pairwise_iff_getElem.mp hsorted.ascending k l hk hl hlt)

/-- A suffix that does not come later stands at an earlier place. -/
theorem place_le_of_not_lt (hi : order[k]? = some i) (hj : order[l]? = some j)
    (hle : ¬ text.toList.drop j < text.toList.drop i) : k ≤ l := by
  by_contra hlt
  exact hle (drop_lt_of_place_lt hsorted hj hi (by omega))

theorem place_inj (hi : order[k]? = some i) (hj : order[l]? = some i) : k = l :=
  Nat.le_antisymm (place_le_of_not_lt hsorted hi hj (lt_irrefl _))
    (place_le_of_not_lt hsorted hj hi (lt_irrefl _))

theorem getElem?_ranks (hi : order[k]? = some i) : (ranks text.size order)[i]? = some k := by
  rw [← Array.getElem?_toList] at hi
  obtain ⟨hk, rfl⟩ := List.getElem?_eq_some_iff.mp hi
  have h := Order.getElem?_foldl_setIfInBounds id 0 (Array.replicate text.size 0)
    (hsorted.complete.nodup_iff.mpr List.nodup_range)
    (fun p hp => by
      rw [Array.size_replicate]
      exact List.mem_range.mp (hsorted.complete.mem_iff.mp hp)) hk
  rwa [Nat.zero_add] at h

omit hsorted in
/-- The positions at some places, in ascending order. -/
theorem mem_stretch_iff {first last p : Nat} :
    p ∈ (order.extract first last).toList.mergeSort (fun a b => decide (a ≤ b))
      ↔ ∃ k, first ≤ k ∧ k < last ∧ order[k]? = some p := by
  rw [List.mem_mergeSort, List.mem_iff_getElem?]
  constructor
  · rintro ⟨t, ht⟩
    rw [Array.getElem?_toList, Array.getElem?_extract] at ht
    split at ht
    · exact ⟨first + t, by omega, by omega, ht⟩
    · exact absurd ht nofun
  · rintro ⟨k, hfirst, hlast, hp⟩
    refine ⟨k - first, ?_⟩
    have hlt := (Array.getElem?_eq_some_iff.mp hp).1
    rw [Array.getElem?_toList, Array.getElem?_extract, if_pos (by omega),
      Nat.add_sub_cancel' hfirst, hp]

/-- **No position stands at two places.** -/
theorem pairwise_stretch (first last : Nat) :
    ((order.extract first last).toList.mergeSort fun a b => decide (a ≤ b)).Pairwise (· < ·) := by
  have hle := Order.pairwise_mergeSort_key id (fun _ _ => decide_eq_true_iff)
    (order.extract first last).toList
  have hnodup : ((order.extract first last).toList.mergeSort fun a b => decide (a ≤ b)).Nodup := by
    rw [(List.mergeSort_perm _ _).nodup_iff, Array.toList_extract, List.extract_eq_take_drop]
    exact ((hsorted.complete.nodup_iff.mpr List.nodup_range).sublist
      (List.drop_sublist _ _)).sublist (List.take_sublist _ _)
  exact (hle.and hnodup).imp fun h => lt_of_le_of_ne h.1 h.2

/-! ## The scan -/

omit hsorted in
/-- **The scan up to a position** — the lengths found belong to the positions before it, and what
carries over is no more than what its suffix shares with its neighbour. -/
structure Scanned (text : Array Int) (order : Array Nat) (t : Nat) (scan : Scan) : Prop where
  size_lengths : scan.lengths.size = text.size
  first : 0 < text.size → scan.lengths[0]? = some 0
  found : ∀ {k i j : Nat}, order[k]? = some i → order[k + 1]? = some j → j < t →
    scan.lengths[k + 1]? = some (common (text.toList.drop i) (text.toList.drop j))
  carried : ∀ {k i : Nat}, order[k]? = some i → order[k + 1]? = some t →
    scan.carried ≤ common (text.toList.drop t) (text.toList.drop i)

/-- **What carries over** — after a match of `c` symbols the next suffix shares at least `c - 1`
symbols with its own neighbour. -/
theorem common_pred_le {t : Nat} (hi : order[k]? = some i) (ht : order[k + 1]? = some t)
    (hj : order[l]? = some j) (ht' : order[l + 1]? = some (t + 1)) :
    common (text.toList.drop t) (text.toList.drop i) - 1
      ≤ common (text.toList.drop (t + 1)) (text.toList.drop j) := by
  have hin := lt_of_sorted hsorted hi
  have htn := lt_of_sorted hsorted ht
  have hlt := drop_lt_of_place_lt hsorted hi ht (Nat.lt_succ_self k)
  rw [List.drop_eq_getElem_cons (i := i) (by simpa using hin),
    List.drop_eq_getElem_cons (i := t) (by simpa using htn)] at hlt ⊢
  rw [common_cons_cons]
  split
  · next heq =>
    rw [Nat.add_sub_cancel]
    rcases Nat.lt_or_ge (i + 1) text.size with hin' | hin'
    · -- the shortened match stands at a place before the next suffix
      obtain ⟨p, hp⟩ := exists_place hsorted hin'
      have hbefore : text.toList.drop (i + 1) < text.toList.drop (t + 1) := by
        rw [heq, List.cons_lt_cons_iff] at hlt
        exact (hlt.resolve_left (lt_irrefl _)).2
      have hplace := place_le_of_not_lt hsorted hp ht' (lt_asymm hbefore)
      have hne : p ≠ l + 1 := by
        rintro rfl
        rw [hp] at ht'
        rw [Option.some.inj ht'] at hbefore
        exact lt_irrefl _ hbefore
      have hnot : ¬ text.toList.drop j < text.toList.drop (i + 1) := by
        rcases Nat.lt_or_ge p l with hpl | hpl
        · exact lt_asymm (drop_lt_of_place_lt hsorted hp hj hpl)
        · obtain rfl : p = l := by omega
          rw [hp] at hj
          rw [Option.some.inj hj]
          exact lt_irrefl _
      rw [common_comm, common_comm (text.toList.drop (t + 1))]
      exact common_le_of_between hnot
        (lt_asymm (drop_lt_of_place_lt hsorted hj ht' (Nat.lt_succ_self l)))
    · rw [List.drop_eq_nil_of_le (i := i + 1) (by simpa using hin'), common_nil_right]
      exact Nat.zero_le _
  · exact Nat.zero_le _

/-- **One step of the scan.** -/
theorem Scanned.step {t : Nat} (ht : t < text.size) {scan : Scan}
    (hscan : Scanned text order t scan) :
    Scanned text order (t + 1) (Scan.step text order (ranks text.size order) scan t) := by
  obtain ⟨k, hk⟩ := exists_place hsorted ht
  rw [Scan.step, getElem?_ranks hsorted hk, Option.getD_some]
  obtain ⟨hsize, hfirst, hfound, hcarried⟩ := hscan
  match k with
  | 0 =>
    refine ⟨hsize, hfirst, fun {l i j} hi hj hlt => hfound hi hj ?_, fun _ _ => Nat.zero_le _⟩
    rcases Nat.lt_or_ge j t with h | h
    · exact h
    · obtain rfl : j = t := by omega
      exact absurd (place_inj hsorted hk hj) (by omega)
  | k + 1 =>
    obtain ⟨i, hi⟩ : ∃ i, order[k]? = some i :=
      ⟨_, Array.getElem?_eq_getElem (Nat.lt_of_succ_lt (Array.getElem?_eq_some_iff.mp hk).1)⟩
    dsimp only
    rw [hi, Option.getD_some, agreement_eq_common (hcarried hi hk)]
    have hlt : k + 1 < scan.lengths.size := by
      rw [hsize, ← size_of_sorted hsorted]
      exact (Array.getElem?_eq_some_iff.mp hk).1
    refine ⟨by rw [Array.size_setIfInBounds, hsize], fun hpos => ?_, fun {l i' j} hi' hj hjt => ?_,
      fun {l j} hj ht' => common_pred_le hsorted hi hk hj ht'⟩
    · rw [Array.getElem?_setIfInBounds_ne (by omega), hfirst hpos]
    · rcases eq_or_ne k l with rfl | hne
      · rw [hi] at hi'
        rw [hk] at hj
        rw [Array.getElem?_setIfInBounds_self_of_lt hlt, common_comm, Option.some.inj hi',
          Option.some.inj hj]
      · rw [Array.getElem?_setIfInBounds_ne (by omega)]
        refine hfound hi' hj ?_
        rcases Nat.lt_or_ge j t with h | h
        · exact h
        · obtain rfl : j = t := by omega
          exact absurd (place_inj hsorted hk hj) (by omega)

omit hsorted in
/-- The state of the scan when it comes to a position. -/
def Scan.upTo (text : Array Int) (order : Array Nat) (t : Nat) : Scan :=
  (List.range t).foldl (Scan.step text order (ranks text.size order))
    ⟨0, Array.replicate text.size 0⟩

/-- **The scan keeps its invariant** up to every position. -/
theorem scanned_upTo {t : Nat} (ht : t ≤ text.size) :
    Scanned text order t (Scan.upTo text order t) :=
  foldl_range (Scanned text order)
    ⟨Array.size_replicate, fun hpos => by simp [hpos], fun _ _ h => absurd h (Nat.not_lt_zero _),
      fun _ _ => Nat.zero_le _⟩
    fun _ hs _ hscan => hscan.step hsorted (Nat.lt_of_lt_of_le hs ht)

/-- **A text of two symbols or more is scanned to its end.** -/
theorem commonLengths_eq_upTo (hlong : 2 ≤ text.size) :
    commonLengths text order = (Scan.upTo text order text.size).lengths := by
  have hsize := size_of_sorted hsorted
  rw [commonLengths, if_neg (by simp [hsize]; omega), Scan.upTo]

/-- **The common lengths are those of neighbouring suffixes.** -/
theorem commonLengths_spec :
    (commonLengths text order).size = text.size
      ∧ (0 < text.size → (commonLengths text order)[0]? = some 0)
      ∧ ∀ {k i j : Nat}, order[k]? = some i → order[k + 1]? = some j →
        (commonLengths text order)[k + 1]?
          = some (common (text.toList.drop i) (text.toList.drop j)) := by
  rcases Nat.lt_or_ge text.size 2 with hshort | hlong
  · rw [commonLengths, if_pos (by simp [hshort])]
    refine ⟨Array.size_replicate, fun hpos => by simp [hpos], fun {k i j} hi hj => ?_⟩
    have hk := (Array.getElem?_eq_some_iff.mp hj).1
    rw [size_of_sorted hsorted] at hk
    omega
  · rw [commonLengths_eq_upTo hsorted hlong]
    obtain ⟨hlengths, hfirst, hfound, -⟩ := scanned_upTo hsorted (Nat.le_refl text.size)
    exact ⟨hlengths, hfirst, fun hi hj => hfound hi hj (lt_of_sorted hsorted hj)⟩

end Order

/-! ## Agreeing symbol by symbol -/

/-- **Two suffixes agree for `l` symbols** if both have them and they are equal one by one. -/
def AgreeFor (text : Array Int) (i j l : Nat) : Prop :=
  ∀ p < l, ∃ a, text[i + p]? = some a ∧ text[j + p]? = some a

theorem agreeFor_iff {text : Array Int} {i j l : Nat} :
    AgreeFor text i j l ↔ l ≤ common (text.toList.drop i) (text.toList.drop j) := by
  have hdrop : ∀ s p : Nat, (text.toList.drop s)[p]? = text[s + p]? := fun s p => by
    rw [List.getElem?_drop, Array.getElem?_toList]
  rw [le_common_iff]
  constructor
  · intro h
    have hlong : ∀ p < l, p < (text.toList.drop i).length ∧ p < (text.toList.drop j).length := by
      intro p hp
      obtain ⟨a, hi, hj⟩ := h p hp
      rw [← hdrop] at hi hj
      exact ⟨(List.getElem?_eq_some_iff.mp hi).1, (List.getElem?_eq_some_iff.mp hj).1⟩
    refine ⟨Nat.le_of_not_lt fun hlt => Nat.lt_irrefl _ (hlong _ hlt).1,
      Nat.le_of_not_lt fun hlt => Nat.lt_irrefl _ (hlong _ hlt).2, List.ext_getElem? fun p => ?_⟩
    rw [List.getElem?_take, List.getElem?_take]
    split
    · next hp =>
      obtain ⟨a, hi, hj⟩ := h p hp
      rw [hdrop, hdrop, hi, hj]
    · rfl
  · rintro ⟨hi, -, htake⟩ p hp
    have heq := congrArg (·[p]?) htake
    rw [List.getElem?_take_of_lt hp, List.getElem?_take_of_lt hp, hdrop, hdrop] at heq
    have hsome := List.getElem?_eq_getElem (Nat.lt_of_lt_of_le hp hi)
    rw [hdrop] at hsome
    exact ⟨_, hsome, heq ▸ hsome⟩

theorem isGreatest_common (text : Array Int) (i j : Nat) :
    IsGreatest {l | AgreeFor text i j l} (common (text.toList.drop i) (text.toList.drop j)) :=
  ⟨agreeFor_iff.mpr (Nat.le_refl _), fun _ hl => agreeFor_iff.mp hl⟩

/-- **The common lengths are the greatest there are** — for every sorted order of the suffixes there
is an entry for each place, the first one zero and every other one the greatest number of symbols
for which the suffixes at the place before it and at its own place agree.  At every position the
scan starts with symbols that do agree, so it skips no difference. -/
theorem commonLengths_greatest {text : Array Int} {order : Array Nat}
    (hsorted : Suffix.Sorted (fun a b => decide (a < b)) text order) :
    (commonLengths text order).size = text.size
      ∧ (0 < text.size → (commonLengths text order)[0]? = some 0)
      ∧ (∀ k i j : Nat, order[k]? = some i → order[k + 1]? = some j →
        ∃ l, (commonLengths text order)[k + 1]? = some l
          ∧ IsGreatest {l | AgreeFor text i j l} l)
      ∧ (2 ≤ text.size → commonLengths text order = (Scan.upTo text order text.size).lengths)
      ∧ ∀ k i t : Nat, order[k]? = some i → order[k + 1]? = some t →
        AgreeFor text t i (Scan.upTo text order t).carried := by
  obtain ⟨hsize, hfirst, hfound⟩ := commonLengths_spec hsorted
  refine ⟨hsize, hfirst, fun k i j hi hj => ⟨_, hfound hi hj, isGreatest_common text i j⟩,
    commonLengths_eq_upTo hsorted, fun k i t hi ht => agreeFor_iff.mpr ?_⟩
  exact (scanned_upTo hsorted (Nat.le_of_lt (lt_of_sorted hsorted ht))).carried hi ht

/-- The text `b a n a n a`, where the match of three symbols at `a n a` carries over two of them. -/
theorem commonLengths_greatest_of_banana :
    Suffix.Sorted (fun a b : Int => decide (a < b)) #[2, 1, 3, 1, 3, 1] #[5, 3, 1, 0, 4, 2]
      ∧ (∃ l, (commonLengths #[2, 1, 3, 1, 3, 1] #[5, 3, 1, 0, 4, 2])[2]? = some l
        ∧ IsGreatest {l | AgreeFor #[2, 1, 3, 1, 3, 1] 3 1 l} l)
      ∧ (Scan.upTo #[2, 1, 3, 1, 3, 1] #[5, 3, 1, 0, 4, 2] 2).carried = 2
      ∧ AgreeFor #[2, 1, 3, 1, 3, 1] 2 4 2 := by
  have hsorted : Suffix.Sorted (fun a b : Int => decide (a < b)) #[2, 1, 3, 1, 3, 1]
      #[5, 3, 1, 0, 4, 2] := ⟨by decide +kernel, by decide +kernel⟩
  have hcarried : (Scan.upTo #[2, 1, 3, 1, 3, 1] #[5, 3, 1, 0, 4, 2] 2).carried = 2 := by
    decide +kernel
  obtain ⟨-, -, hgreatest, -, hagree⟩ := commonLengths_greatest hsorted
  refine ⟨hsorted, hgreatest 1 3 1 rfl rfl, hcarried, ?_⟩
  have hfirst := hagree 4 4 2 rfl rfl
  rwa [hcarried] at hfirst

end CodeClones.Repeat
