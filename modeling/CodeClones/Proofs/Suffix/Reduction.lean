import CodeClones.Proofs.Order.Table
import CodeClones.Proofs.Suffix.Forward
import CodeClones.Proofs.Suffix.Naming

/-!
# Proofs/Suffix/Reduction — the reduced sequence has the order of the valleys

Given the valleys in the order of their stretches, `reduce?` numbers the stretches in their order
(`exists_reduce?`), and the suffixes of the reduced sequence are in the order of the suffixes of the
text at the valleys (`lt_of_reduced_lt`).
-/

namespace CodeClones.Suffix

variable {symbols : Array Nat} {top : Nat}

theorem getElem?_placesIn {k : Nat}
    (hk : k < (valleys (Layout.ofSymbols symbols top).rises).length) :
    (placesIn symbols.size (valleys (Layout.ofSymbols symbols top).rises))[
        (valleys (Layout.ofSymbols symbols top).rises)[k]]? = some (some k) := by
  have h := Order.getElem?_foldl_setIfInBounds some 0 (Array.replicate symbols.size none)
    (nodup_valleys (Layout.ofSymbols symbols top).rises)
    (fun p hp => by
      rw [Array.size_replicate]
      exact (mem_valleys_iff.mp hp).1) hk
  rwa [Nat.zero_add] at h

/-! ## Naming -/

/-- **A valley and its name** — the `k`-th valley stands at `i`, is one of `done` and is
named `x`. -/
structure HasName (symbols : Array Nat) (top : Nat) (done : List Nat) (names : Array Nat)
    (k i x : Nat) : Prop where
  valley : (valleys (Layout.ofSymbols symbols top).rises)[k]? = some i
  mem : i ∈ done
  name : names[k]? = some x

/-- **Names given so far** — the valleys among `done` are named in the order of their stretches, and
the last one has the greatest name. -/
structure Named (symbols : Array Nat) (top : Nat) (done : List Nat) (naming : Naming) : Prop where
  size_names : naming.names.size = (valleys (Layout.ofSymbols symbols top).rises).length
  name_lt : naming.name < done.length
  last_mem : naming.last ∈ done
  last_greatest : ∀ i ∈ done, ¬ stretchAt symbols naming.last < stretchAt symbols i
  last_named : ∀ {k : Nat},
    (valleys (Layout.ofSymbols symbols top).rises)[k]? = some naming.last →
      naming.names[k]? = some naming.name
  le_name : ∀ {k i x : Nat}, HasName symbols top done naming.names k i x → x ≤ naming.name
  lt_iff : ∀ {k i x l j y : Nat}, HasName symbols top done naming.names k i x →
    HasName symbols top done naming.names l j y →
    (x < y ↔ stretchAt symbols i < stretchAt symbols j)

/-- The name after `last` for the valley `i`. -/
def nameAfter (symbols : Array Nat) (last name i : Nat) : Nat :=
  if stretchAt symbols last = stretchAt symbols i then name else name + 1

theorem le_nameAfter (symbols : Array Nat) (last name i : Nat) :
    name ≤ nameAfter symbols last name i := by
  rw [nameAfter]
  split <;> omega

theorem nameAfter_le (symbols : Array Nat) (last name i : Nat) :
    nameAfter symbols last name i ≤ name + 1 := by
  rw [nameAfter]
  split <;> omega

/-- **Naming the next valley** — the same name if its stretch is the same, otherwise the next
name. -/
theorem Naming.next?_eq {last name k l i : Nat} {names : Array Nat}
    (hlast : (valleys (Layout.ofSymbols symbols top).rises)[k]? = some last)
    (hi : (valleys (Layout.ofSymbols symbols top).rises)[l]? = some i) (hne : k ≠ l)
    (hsize : names.size = (valleys (Layout.ofSymbols symbols top).rises).length)
    (hle : ¬ stretchAt symbols i < stretchAt symbols last) :
    Naming.next? symbols (valleys (Layout.ofSymbols symbols top).rises).toArray
        (placesIn symbols.size (valleys (Layout.ofSymbols symbols top).rises)) ⟨last, name, names⟩ i
      = some ⟨i, nameAfter symbols last name i,
          names.setIfInBounds l (nameAfter symbols last name i)⟩ := by
  have hsame := (isStretch_of_valley hlast).sameStretch?_eq (isStretch_of_valley hi) hne hle
  obtain ⟨hk, hlast⟩ := List.getElem?_eq_some_iff.mp hlast
  obtain ⟨hl, hi⟩ := List.getElem?_eq_some_iff.mp hi
  have hplace := getElem?_placesIn hk
  have hplace' := getElem?_placesIn hl
  rw [hlast] at hplace
  rw [hi] at hplace'
  have hput : ∀ x, put? names l x = some (names.setIfInBounds l x) := fun _ =>
    put?_eq (hsize ▸ hl)
  rw [Naming.next?, nameAfter]
  simp only [hplace, hplace', Option.bind_eq_bind, Option.bind_some, id]
  split at hsame
  · next hextent =>
    rw [if_pos hextent, hsame]
    simp only [Option.bind_some, decide_eq_true_eq, hput, Option.pure_def]
  · next hextent =>
    have hdiffer := of_decide_eq_false (Option.some.inj hsame).symm
    rw [if_neg hextent]
    simp only [Option.bind_some, hput, Option.pure_def, hdiffer, Bool.false_eq_true]

/-- A valley has one place among the valleys. -/
theorem place_eq_of_valley {a b i : Nat}
    (ha : (valleys (Layout.ofSymbols symbols top).rises)[a]? = some i)
    (hb : (valleys (Layout.ofSymbols symbols top).rises)[b]? = some i) : a = b := by
  obtain ⟨ha, hai⟩ := List.getElem?_eq_some_iff.mp ha
  obtain ⟨hb, hbi⟩ := List.getElem?_eq_some_iff.mp hb
  exact (nodup_valleys _).getElem_inj_iff.mp (hai.trans hbi.symm)

/-- **A named valley** has the new name or was named before. -/
theorem named_now_or_before {done : List Nat} {names : Array Nat} {l i name : Nat}
    (hi : (valleys (Layout.ofSymbols symbols top).rises)[l]? = some i) (hl : l < names.size)
    {a j x : Nat}
    (h : HasName symbols top (done ++ [i]) (names.setIfInBounds l name) a j x) :
    j = i ∧ x = name ∨ HasName symbols top done names a j x := by
  obtain ⟨ha, hj, hx⟩ := h
  rcases eq_or_ne a l with rfl | hal
  · rw [hi] at ha
    rw [Array.getElem?_setIfInBounds_self_of_lt hl] at hx
    exact Or.inl ⟨(Option.some.inj ha).symm, (Option.some.inj hx).symm⟩
  · rw [Array.getElem?_setIfInBounds_ne (Ne.symm hal)] at hx
    refine Or.inr ⟨ha, (List.mem_append.mp hj).resolve_right fun hj => hal ?_, hx⟩
    obtain rfl := List.mem_singleton.mp hj
    exact place_eq_of_valley ha hi

section Named

variable {done : List Nat} {naming : Naming} (hnamed : Named symbols top done naming)

include hnamed

/-- **The next name compares with the others as the stretches do.** -/
theorem Named.lt_nameAfter_iff {k : Nat}
    (hlast : (valleys (Layout.ofSymbols symbols top).rises)[k]? = some naming.last) {i : Nat}
    (hle : ∀ j ∈ done, ¬ stretchAt symbols i < stretchAt symbols j) {a j x : Nat}
    (hj : HasName symbols top done naming.names a j x) :
    x < nameAfter symbols naming.last naming.name i
      ↔ stretchAt symbols j < stretchAt symbols i := by
  have hname := hnamed.lt_iff hj ⟨hlast, hnamed.last_mem, hnamed.last_named hlast⟩
  have hbound := hnamed.le_name hj
  rw [nameAfter]
  split
  · next hsame => rw [hname, hsame]
  · next hdiffer =>
    refine iff_of_true (by omega) ?_
    have hbelow := lt_of_le_of_ne (not_lt.mp (hle naming.last hnamed.last_mem)) hdiffer
    exact lt_of_le_of_lt (not_lt.mp (hnamed.last_greatest j hj.mem)) hbelow

/-- **One more name.** -/
theorem Named.extend {k : Nat}
    (hlast : (valleys (Layout.ofSymbols symbols top).rises)[k]? = some naming.last) {l i : Nat}
    (hi : (valleys (Layout.ofSymbols symbols top).rises)[l]? = some i)
    (hle : ∀ j ∈ done, ¬ stretchAt symbols i < stretchAt symbols j) :
    Named symbols top (done ++ [i]) ⟨i, nameAfter symbols naming.last naming.name i,
      naming.names.setIfInBounds l (nameAfter symbols naming.last naming.name i)⟩ := by
  have hl : l < naming.names.size := by
    rw [hnamed.size_names]
    exact (List.getElem?_eq_some_iff.mp hi).1
  refine ⟨?_, ?_, List.mem_append_right _ (List.mem_singleton_self i), ?_, ?_, ?_, ?_⟩
  · rw [Array.size_setIfInBounds, hnamed.size_names]
  · rw [List.length_append, List.length_singleton]
    exact Nat.lt_succ_of_le ((nameAfter_le ..).trans hnamed.name_lt)
  · intro j hj
    rcases List.mem_append.mp hj with hj | hj
    · exact hle j hj
    · rw [List.mem_singleton.mp hj]
      exact lt_irrefl _
  · intro a ha
    obtain rfl := place_eq_of_valley ha hi
    exact Array.getElem?_setIfInBounds_self_of_lt hl
  · intro a j x hj
    obtain ⟨rfl, rfl⟩ | hold := named_now_or_before hi hl hj
    · exact le_rfl
    · exact (hnamed.le_name hold).trans (le_nameAfter ..)
  · intro a j x b j' y hj hj'
    obtain ⟨rfl, rfl⟩ | hold := named_now_or_before hi hl hj <;>
      obtain ⟨rfl, rfl⟩ | hold' := named_now_or_before hi hl hj'
    · exact iff_of_false (lt_irrefl _) (lt_irrefl _)
    · have hbound := (hnamed.le_name hold').trans
        (le_nameAfter symbols naming.last naming.name j)
      exact iff_of_false (not_lt.mpr hbound) (hle j' hold'.mem)
    · exact hnamed.lt_nameAfter_iff hlast hle hold
    · exact hnamed.lt_iff hold hold'

/-- **Naming one more valley.** -/
theorem Named.next? (hdone : ∀ i ∈ done, i ∈ valleys (Layout.ofSymbols symbols top).rises)
    {l i : Nat} (hi : (valleys (Layout.ofSymbols symbols top).rises)[l]? = some i)
    (hnew : i ∉ done) (hle : ∀ j ∈ done, ¬ stretchAt symbols i < stretchAt symbols j) :
    ∃ naming', Naming.next? symbols (valleys (Layout.ofSymbols symbols top).rises).toArray
        (placesIn symbols.size (valleys (Layout.ofSymbols symbols top).rises)) naming i
        = some naming' ∧ Named symbols top (done ++ [i]) naming' := by
  obtain ⟨k, hlast⟩ := List.mem_iff_getElem?.mp (hdone _ hnamed.last_mem)
  have hne : k ≠ l := by
    rintro rfl
    rw [hlast] at hi
    exact hnew (Option.some.inj hi ▸ hnamed.last_mem)
  exact ⟨_, Naming.next?_eq hlast hi hne hnamed.size_names (hle _ hnamed.last_mem),
    hnamed.extend hlast hi hle⟩

end Named

/-- **Naming the rest of the valleys.** -/
theorem Named.foldlM {done : List Nat} {naming : Naming}
    (hnamed : Named symbols top done naming) (rest : List Nat)
    (hvalleys : ∀ i ∈ done ++ rest, i ∈ valleys (Layout.ofSymbols symbols top).rises)
    (hnodup : (done ++ rest).Nodup)
    (hsorted : (done ++ rest).Pairwise fun i j => ¬ stretchAt symbols j < stretchAt symbols i) :
    ∃ naming', rest.foldlM (Naming.next? symbols
        (valleys (Layout.ofSymbols symbols top).rises).toArray
        (placesIn symbols.size (valleys (Layout.ofSymbols symbols top).rises))) naming
        = some naming' ∧ Named symbols top (done ++ rest) naming' := by
  induction rest generalizing done naming with
  | nil => exact ⟨naming, rfl, by rwa [List.append_nil]⟩
  | cons i rest ih =>
    obtain ⟨l, hl, hi⟩ := List.getElem_of_mem
      (hvalleys i (List.mem_append_right _ List.mem_cons_self))
    obtain ⟨naming', hnext, hnamed'⟩ := hnamed.next?
      (fun j hj => hvalleys j (List.mem_append_left _ hj))
      (by rw [List.getElem?_eq_getElem hl, hi])
      (fun hi => (List.nodup_append.mp hnodup).2.2 i hi i List.mem_cons_self rfl)
      (fun j hj => (List.pairwise_append.mp hsorted).2.2 j hj i List.mem_cons_self)
    rw [List.append_cons] at hvalleys hnodup hsorted ⊢
    obtain ⟨naming'', hrest, hnamed''⟩ := ih hnamed' hvalleys hnodup hsorted
    exact ⟨naming'', by rw [List.foldlM_cons, hnext]; exact hrest, hnamed''⟩

theorem HasName.of_perm {done done' : List Nat} {names : Array Nat} {k i x : Nat}
    (h : HasName symbols top done names k i x) (hperm : done.Perm done') :
    HasName symbols top done' names k i x :=
  ⟨h.valley, hperm.mem_iff.mp h.mem, h.name⟩

theorem Named.of_perm {done done' : List Nat} {naming : Naming}
    (hnamed : Named symbols top done naming) (hperm : done.Perm done') :
    Named symbols top done' naming where
  size_names := hnamed.size_names
  name_lt := hperm.length_eq ▸ hnamed.name_lt
  last_mem := hperm.mem_iff.mp hnamed.last_mem
  last_greatest i hi := hnamed.last_greatest i (hperm.mem_iff.mpr hi)
  last_named := hnamed.last_named
  le_name hi := hnamed.le_name (hi.of_perm hperm.symm)
  lt_iff hi hj := hnamed.lt_iff (hi.of_perm hperm.symm) (hj.of_perm hperm.symm)

/-- The first valley gets the name zero. -/
theorem named_first {k i : Nat}
    (hi : (valleys (Layout.ofSymbols symbols top).rises)[k]? = some i) :
    Named symbols top [i] ⟨i, 0, (Array.replicate
      (valleys (Layout.ofSymbols symbols top).rises).length 0).setIfInBounds k 0⟩ := by
  have hzero : ∀ {l x : Nat}, ((Array.replicate
      (valleys (Layout.ofSymbols symbols top).rises).length 0).setIfInBounds k 0)[l]? = some x →
      x = 0 := by
    intro l x hx
    rcases eq_or_ne k l with hkl | hkl
    · subst hkl
      rw [Array.getElem?_setIfInBounds_self] at hx
      split at hx
      · exact (Option.some.inj hx).symm
      · exact absurd hx nofun
    · rw [Array.getElem?_setIfInBounds_ne hkl, Array.getElem?_replicate] at hx
      split at hx
      · exact (Option.some.inj hx).symm
      · exact absurd hx nofun
  have hk := (List.getElem?_eq_some_iff.mp hi).1
  refine ⟨by simp, by simp, by simp, by simp, ?_, ?_, ?_⟩
  · intro l hl
    obtain rfl := place_eq_of_valley hl hi
    exact Array.getElem?_setIfInBounds_self_of_lt (by rwa [Array.size_replicate])
  · intro l j x hj
    exact (hzero hj.name).le
  · intro l j x l' j' y hj hj'
    obtain rfl := List.mem_singleton.mp hj.mem
    obtain rfl := List.mem_singleton.mp hj'.mem
    rw [hzero hj.name, hzero hj'.name]
    exact iff_of_false (lt_irrefl _) (lt_irrefl _)

/-- **The reduced sequence** — given the valleys in the order of their stretches, every valley gets
a name, in the order of the stretches. -/
theorem exists_reduce? {sorted : List Nat}
    (hperm : sorted.Perm (valleys (Layout.ofSymbols symbols top).rises)) (hne : sorted ≠ [])
    (hsorted : sorted.Pairwise fun i j => ¬ stretchAt symbols j < stretchAt symbols i) :
    ∃ naming, reduce? symbols (valleys (Layout.ofSymbols symbols top).rises).toArray
        (placesIn symbols.size (valleys (Layout.ofSymbols symbols top).rises)) sorted
        = some (naming.names, naming.name)
      ∧ Named symbols top (valleys (Layout.ofSymbols symbols top).rises) naming := by
  match sorted with
  | [] => exact absurd rfl hne
  | first :: rest =>
    obtain ⟨k, hk, hfirst⟩ := List.getElem_of_mem (hperm.mem_iff.mp List.mem_cons_self)
    have hplace := getElem?_placesIn hk
    rw [hfirst] at hplace
    have hnamed : Named symbols top [first] ⟨first, 0, (Array.replicate
        (valleys (Layout.ofSymbols symbols top).rises).length 0).setIfInBounds k 0⟩ := named_first
      (by rw [List.getElem?_eq_getElem hk, hfirst])
    obtain ⟨naming, hrest, hnamed'⟩ := hnamed.foldlM rest
      (fun i hi => hperm.mem_iff.mp hi)
      (hperm.nodup_iff.mpr (nodup_valleys _)) hsorted
    refine ⟨naming, ?_, hnamed'.of_perm hperm⟩
    rw [reduce?]
    simp only [hplace, Option.bind_eq_bind, Option.bind_some, id, List.size_toArray,
      put?_eq (show k < (Array.replicate (valleys (Layout.ofSymbols symbols top).rises).length
        0).size by rwa [Array.size_replicate])]
    rw [hrest]
    rfl

/-! ## Suffixes of the reduced sequence -/

/-- **A suffix of names** — it starts with the name of a valley, and goes on where the stretch of
that valley ends. -/
theorem Named.valley_of_drop_eq {naming : Naming}
    (hnamed : Named symbols top (valleys (Layout.ofSymbols symbols top).rises) naming) {k x : Nat}
    {rest : List Nat} (hdrop : naming.names.toList.drop k = x :: rest) :
    ∃ i, HasName symbols top (valleys (Layout.ofSymbols symbols top).rises) naming.names k i x
      ∧ naming.names.toList.drop (k + 1) = rest
      ∧ afterStretch (symbols.toList.drop i) = symbols.toList.drop
          ((valleys (Layout.ofSymbols symbols top).rises)[k + 1]?.getD symbols.size) := by
  have hx : naming.names[k]? = some x := by
    have hhead : (naming.names.toList.drop k)[0]? = some x := by
      rw [hdrop, List.getElem?_cons_zero]
    rwa [List.getElem?_drop, Nat.add_zero, Array.getElem?_toList] at hhead
  have hk : k < (valleys (Layout.ofSymbols symbols top).rises).length :=
    hnamed.size_names ▸ (Array.getElem?_eq_some_iff.mp hx).1
  have hvalley := List.getElem?_eq_getElem hk
  have hafter := (isStretch_of_valley hvalley).after
  refine ⟨_, ⟨hvalley, List.getElem_mem hk, hx⟩, ?_, ?_⟩
  · rw [← List.drop_drop, hdrop, List.drop_succ_cons, List.drop_zero]
  · rwa [stretchEnd, List.getElem?_toArray] at hafter

/-- **The reduced sequence has the order of the valleys** — a suffix of names precedes another only
if the text does so at the two valleys; past the last valley stands the end of the text. -/
theorem lt_of_reduced_lt {naming : Naming}
    (hnamed : Named symbols top (valleys (Layout.ofSymbols symbols top).rises) naming) {k l : Nat}
    (hlt : naming.names.toList.drop k < naming.names.toList.drop l) :
    symbols.toList.drop ((valleys (Layout.ofSymbols symbols top).rises)[k]?.getD symbols.size)
      < symbols.toList.drop
          ((valleys (Layout.ofSymbols symbols top).rises)[l]?.getD symbols.size) := by
  induction hk : naming.names.toList.drop k generalizing k l with
  | nil =>
    rcases hl : naming.names.toList.drop l with - | ⟨y, rest⟩
    · rw [hk, hl] at hlt
      exact absurd hlt (List.not_lt_nil _)
    · obtain ⟨j, hj, -, -⟩ := hnamed.valley_of_drop_eq hl
      obtain ⟨a, ha⟩ := drop_eq_cons
        (show j < symbols.toList.length by simpa using (mem_valleys_iff.mp hj.mem).1)
      have hend : (valleys (Layout.ofSymbols symbols top).rises)[k]? = none := by
        rw [List.getElem?_eq_none_iff, ← hnamed.size_names, ← Array.length_toList]
        exact List.drop_eq_nil_iff.mp hk
      rw [hend, hj.valley, Option.getD_none, Option.getD_some, ha, ← Array.length_toList,
        List.drop_length]
      exact List.nil_lt_cons _ _
  | cons x rest ih =>
    rcases hl : naming.names.toList.drop l with - | ⟨y, rest'⟩
    · rw [hl] at hlt
      exact absurd hlt (List.not_lt_nil _)
    · obtain ⟨i, hi, hrest, hafter⟩ := hnamed.valley_of_drop_eq hk
      obtain ⟨j, hj, hrest', hafter'⟩ := hnamed.valley_of_drop_eq hl
      have hiff := hnamed.lt_iff hi hj
      have hiff' := hnamed.lt_iff hj hi
      rw [hi.valley, hj.valley, Option.getD_some, Option.getD_some]
      rw [hk, hl, List.cons_lt_cons_iff] at hlt
      rcases hlt with hxy | ⟨rfl, hlt⟩
      · exact lt_of_stretch_lt (hiff.mp hxy)
      · -- equal names stand for equal stretches, and what follows them decides
        have hsame : stretchAt symbols i = stretchAt symbols j :=
          le_antisymm (not_lt.mp fun h => lt_irrefl _ (hiff'.mpr h))
            (not_lt.mp fun h => lt_irrefl _ (hiff.mpr h))
        refine lt_of_stretch_eq hsame ?_
        rw [hafter, hafter']
        exact ih (by rwa [hrest, hrest']) hrest

end CodeClones.Suffix
