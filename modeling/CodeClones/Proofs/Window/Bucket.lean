import CodeClones.Window.Bucket
import Mathlib

/-!
# Proofs/Window/Bucket — buckets keep the order, and parts share a bucket out

A bucket holds the windows of its hash in the order given (`mem_buckets_iff`).  Its parts share it
out (`perm_flatten_parted`), and what one member has and every member that joins keeps, each part
has (`exists_of_mem_parted`).  Entries of a kind that only its own kind joins are parted as if there
were no others (`parted_filter`), so strangers in a bucket cost them nothing.
-/

namespace CodeClones.Window

/-! ## Buckets -/

section Buckets

variable {entries : List (UInt64 × Window)} {hash : UInt64} {windows : Array Window}

/-- The windows of a hash, in the order given. -/
def withHash (hash : UInt64) (entries : List (UInt64 × Window)) : List Window :=
  (entries.filter fun entry => entry.1 == hash).map Prod.snd

theorem withHash_concat (entries : List (UInt64 × Window)) (entry : UInt64 × Window) :
    withHash hash (entries ++ [entry])
      = if entry.1 = hash then withHash hash entries ++ [entry.2] else withHash hash entries := by
  rw [withHash, List.filter_append, List.map_append, ← withHash]
  by_cases heq : entry.1 = hash <;> simp [heq]

/-- **What the table holds for a hash.** -/
theorem getElem?_foldl_deposit (entries : List (UInt64 × Window)) (hash : UInt64) :
    (entries.foldl deposit ∅)[hash]?
      = if withHash hash entries = [] then none else some (withHash hash entries).toArray := by
  induction entries using List.reverseRecOn with
  | nil => rw [List.foldl_nil, Std.HashMap.getElem?_empty]; rfl
  | append_singleton entries entry ih =>
    rw [List.foldl_append, List.foldl_cons, List.foldl_nil, deposit, Std.HashMap.getElem?_alter,
      withHash_concat]
    by_cases heq : entry.1 = hash
    · subst heq
      rw [if_pos (beq_self_eq_true _), if_pos rfl, ih, if_neg (List.append_ne_nil_of_right_ne_nil _
        (List.cons_ne_nil _ _))]
      by_cases hnone : withHash entry.1 entries = []
      · rw [if_pos hnone, hnone]
        rfl
      · rw [if_neg hnone, Option.getD_some, List.push_toArray]
    · rw [if_neg (by rwa [beq_iff_eq]), if_neg heq, ih]

/-- **A bucket holds the windows of its hash**, in the order given. -/
theorem mem_buckets_iff : (hash, windows) ∈ buckets entries
    ↔ withHash hash entries ≠ [] ∧ windows.toList = withHash hash entries := by
  rw [buckets, List.mem_mergeSort, Std.HashMap.mem_toList_iff_getElem?_eq_some,
    getElem?_foldl_deposit]
  split
  · next hnone => exact iff_of_false (Option.some_ne_none _).symm fun h => h.1 hnone
  · next hsome =>
    rw [Option.some_inj, and_iff_right hsome]
    exact ⟨fun heq => heq ▸ rfl, fun heq => Array.toList_inj.mp heq.symm⟩

/-- There is one bucket for each hash. -/
theorem pairwise_buckets (entries : List (UInt64 × Window)) :
    (buckets entries).Pairwise fun a b => a.1 ≠ b.1 := by
  have hkeys : (entries.foldl deposit ∅).toList.Pairwise fun a b => a.1 ≠ b.1 :=
    Std.HashMap.distinct_keys_toList.imp fun hab => by simpa using hab
  exact (List.mergeSort_perm _ _).symm.pairwise hkeys fun hab => hab.symm

end Buckets

/-! ## Collecting -/

section Collect

variable {α : Type} {joins : List α → α → Bool} {members : List α}

theorem collect_cons_of_joins {a : α} (h : joins members a = true) (entries : List α) :
    collect joins members (a :: entries) = collect joins (members ++ [a]) entries := by
  rw [collect, if_pos h]

theorem collect_cons_of_not_joins {a : α} (h : ¬joins members a = true) (entries : List α) :
    collect joins members (a :: entries)
      = ((collect joins members entries).1, a :: (collect joins members entries).2) := by
  rw [collect, if_neg h]

/-- **What is kept whenever one more joins.** -/
theorem collect_induction {p : List α → Prop}
    (hjoin : ∀ members a, p members → joins members a = true → p (members ++ [a]))
    (entries : List α) (h : p members) : p (collect joins members entries).1 := by
  induction entries generalizing members with
  | nil => exact h
  | cons a entries ih =>
    by_cases hjoins : joins members a = true
    · rw [collect_cons_of_joins hjoins]
      exact ih (hjoin members a h hjoins)
    · rw [collect_cons_of_not_joins hjoins]
      exact ih h

theorem prefix_collect (joins : List α → α → Bool) (members entries : List α) :
    members <+: (collect joins members entries).1 :=
  collect_induction (fun _ a h _ => h.trans (List.prefix_append _ [a])) entries List.prefix_rfl

/-- **No entry is lost and none is taken twice.** -/
theorem perm_collect (joins : List α → α → Bool) (members entries : List α) :
    ((collect joins members entries).1 ++ (collect joins members entries).2).Perm
      (members ++ entries) := by
  induction entries generalizing members with
  | nil => exact List.Perm.refl _
  | cons a entries ih =>
    by_cases hjoins : joins members a = true
    · rw [collect_cons_of_joins hjoins, List.append_cons members a entries]
      exact ih _
    · rw [collect_cons_of_not_joins hjoins]
      exact List.perm_middle.trans (((ih members).cons a).trans List.perm_middle.symm)

/-- **Every entry is tried** against what was collected before it. -/
theorem exists_tried (joins : List α → α → Bool) (members before after : List α) (a : α) :
    ∃ met, members <+: met ∧ met ⊆ members ++ before
      ∧ met <+: (collect joins members (before ++ a :: after)).1
      ∧ (joins met a = true → a ∈ (collect joins members (before ++ a :: after)).1) := by
  induction before generalizing members with
  | nil =>
    refine ⟨members, List.prefix_rfl, List.subset_append_left _ _, prefix_collect _ _ _, ?_⟩
    intro hjoins
    rw [List.nil_append, collect_cons_of_joins hjoins]
    exact (prefix_collect joins _ after).subset
      (List.mem_append_right _ (List.mem_singleton_self a))
  | cons b before ih =>
    rw [List.cons_append]
    by_cases hjoins : joins members b = true
    · obtain ⟨met, hmembers, hmet, hall, hmem⟩ := ih (members ++ [b])
      rw [collect_cons_of_joins hjoins]
      refine ⟨met, (List.prefix_append members [b]).trans hmembers, ?_, hall, hmem⟩
      rwa [List.append_assoc, List.singleton_append] at hmet
    · obtain ⟨met, hmembers, hmet, hall, hmem⟩ := ih members
      rw [collect_cons_of_not_joins hjoins]
      refine ⟨met, hmembers, List.Subset.trans hmet ?_, hall, hmem⟩
      exact ((List.sublist_cons_self b before).append_left members).subset

/-- **Entries that never join** can be left out: the others join as before, or are left over as
before. -/
theorem collect_filter {keep : α → Bool}
    (hkeep : ∀ members a, joins members a = true → keep a = true) (members entries : List α) :
    collect joins members (entries.filter keep)
      = ((collect joins members entries).1, (collect joins members entries).2.filter keep) := by
  induction entries generalizing members with
  | nil => rfl
  | cons a entries ih =>
    by_cases hjoins : joins members a = true
    · rw [List.filter_cons_of_pos (hkeep members a hjoins), collect_cons_of_joins hjoins,
        collect_cons_of_joins hjoins]
      exact ih _
    · rw [collect_cons_of_not_joins hjoins]
      by_cases ha : keep a = true
      · rw [List.filter_cons_of_pos ha, collect_cons_of_not_joins hjoins,
          List.filter_cons_of_pos ha, ih members]
      · rw [List.filter_cons_of_neg ha, List.filter_cons_of_neg ha]
        exact ih members

/-- Entries that never join are all left over, in order. -/
theorem filter_collect {keep : α → Bool}
    (hkeep : ∀ members a, joins members a = true → keep a = false) (members entries : List α) :
    (collect joins members entries).2.filter keep = entries.filter keep := by
  induction entries generalizing members with
  | nil => rfl
  | cons a entries ih =>
    by_cases hjoins : joins members a = true
    · rw [collect_cons_of_joins hjoins, ih,
        List.filter_cons_of_neg (by rw [hkeep members a hjoins]; exact Bool.false_ne_true)]
    · rw [collect_cons_of_not_joins hjoins, List.filter_cons, List.filter_cons, ih members]

end Collect

/-! ## Parts -/

section Parts

variable {α : Type} {joins : α → List α → α → Bool}

/-- **The parts share the entries out.** -/
theorem perm_flatten_parted (joins : α → List α → α → Bool) (entries : List α) :
    (parted joins entries).flatten.Perm entries := by
  fun_induction parted joins entries with
  | case1 => exact List.Perm.refl _
  | case2 first rest parts ih =>
    rw [List.flatten_cons]
    exact (ih.append_left parts.1).trans (perm_collect (joins first) [first] rest)

/-- **What holds of the first member and is kept whenever one more joins** holds of every part. -/
theorem exists_of_mem_parted {p : α → List α → Prop} (hfirst : ∀ first, p first [first])
    (hjoin : ∀ first members a, p first members → joins first members a = true →
      p first (members ++ [a])) {entries part : List α} (h : part ∈ parted joins entries) :
    ∃ first, p first part := by
  fun_induction parted joins entries with
  | case1 => exact absurd h List.not_mem_nil
  | case2 first rest parts ih =>
    rcases List.mem_cons.mp h with rfl | h
    · exact ⟨first, collect_induction (hjoin first) rest (hfirst first)⟩
    · exact ih h

theorem ne_nil_of_mem_parted {entries part : List α} (h : part ∈ parted joins entries) :
    part ≠ [] := by
  obtain ⟨-, hne⟩ := exists_of_mem_parted (p := fun _ part => part ≠ [])
    (fun _ => List.cons_ne_nil _ _) (fun _ _ _ _ _ => by simp) h
  exact hne

/-- Is a part opened by an entry of some kind? -/
def opensWith (kind : α → Bool) (part : List α) : Bool :=
  part.head?.any kind

/-- **A kind that only its own kind joins** is parted as if there were no other entries. -/
theorem parted_filter {kind : α → Bool}
    (hkind : ∀ first members a, joins first members a = true → kind a = kind first)
    (entries : List α) :
    parted joins (entries.filter kind) = (parted joins entries).filter (opensWith kind) := by
  fun_induction parted joins entries with
  | case1 => rw [List.filter_nil, parted, List.filter_nil]
  | case2 first rest parts ih =>
    have hhead : opensWith kind parts.1 = kind first := by
      obtain ⟨others, hothers⟩ := prefix_collect (joins first) [first] rest
      rw [show parts.1 = [first] ++ others from hothers.symm]
      rfl
    by_cases hfirst : kind first = true
    · have hkeep : ∀ members a, joins first members a = true → kind a = true :=
        fun members a hjoins => (hkind first members a hjoins).trans hfirst
      rw [List.filter_cons_of_pos hfirst, parted, collect_filter hkeep,
        List.filter_cons_of_pos (hhead.trans hfirst), ← ih]
    · have hkeep : ∀ members a, joins first members a = true → kind a = false :=
        fun members a hjoins => by
          rw [hkind first members a hjoins, Bool.eq_false_of_not_eq_true hfirst]
      rw [List.filter_cons_of_neg hfirst, List.filter_cons_of_neg (by rwa [hhead]), ← ih]
      exact congrArg (parted joins) (filter_collect hkeep [first] rest).symm

end Parts

/-! ## Pairs -/

section Pairs

variable {α : Type}

theorem pairs_map {β : Type} (f : α → β) (members : List α) :
    pairs (members.map f) = (pairs members).map (Prod.map f f) := by
  induction members with
  | nil => rfl
  | cons a members ih =>
    rw [List.map_cons, pairs, pairs, ih, List.map_append, List.map_map, List.map_map]
    rfl

theorem mem_of_mem_pairs {members : List α} {pair : α × α} (h : pair ∈ pairs members) :
    pair.1 ∈ members ∧ pair.2 ∈ members := by
  induction members with
  | nil => exact absurd h List.not_mem_nil
  | cons a members ih =>
    rcases List.mem_append.mp h with h | h
    · obtain ⟨b, hb, rfl⟩ := List.mem_map.mp h
      exact ⟨List.mem_cons_self, List.mem_cons_of_mem a hb⟩
    · exact ⟨List.mem_cons_of_mem a (ih h).1, List.mem_cons_of_mem a (ih h).2⟩

theorem rel_of_mem_pairs {r : α → α → Prop} {members : List α} (h : members.Pairwise r)
    {pair : α × α} (hpair : pair ∈ pairs members) : r pair.1 pair.2 := by
  induction members with
  | nil => exact absurd hpair List.not_mem_nil
  | cons a members ih =>
    obtain ⟨ha, hmembers⟩ := List.pairwise_cons.mp h
    rcases List.mem_append.mp hpair with hpair | hpair
    · obtain ⟨b, hb, rfl⟩ := List.mem_map.mp hpair
      exact ha b hb
    · exact ih hmembers hpair

/-- **Two different members make a pair**, the earlier one first. -/
theorem mem_pairs_or {members : List α} {a b : α} (ha : a ∈ members) (hb : b ∈ members)
    (hne : a ≠ b) : (a, b) ∈ pairs members ∨ (b, a) ∈ pairs members := by
  induction members with
  | nil => exact absurd ha List.not_mem_nil
  | cons c members ih =>
    rw [pairs, List.mem_append, List.mem_append]
    rcases List.mem_cons.mp ha with rfl | ha'
    · have hb' := (List.mem_cons.mp hb).resolve_left hne.symm
      exact Or.inl (Or.inl (List.mem_map_of_mem hb'))
    · rcases List.mem_cons.mp hb with rfl | hb'
      · exact Or.inr (Or.inl (List.mem_map_of_mem ha'))
      · exact (ih ha' hb').imp Or.inr Or.inr

/-- **No two members make two pairs.** -/
theorem nodup_pairs {members : List α} (h : members.Nodup) :
    ((pairs members).map fun pair => s(pair.1, pair.2)).Nodup := by
  induction members with
  | nil => exact List.nodup_nil
  | cons a members ih =>
    obtain ⟨ha, hmembers⟩ := List.nodup_cons.mp h
    rw [pairs, List.map_append, List.map_map]
    refine List.nodup_append'.mpr ⟨?_, ih hmembers, ?_⟩
    · exact hmembers.map fun b b' heq => Sym2.congr_right.mp heq
    · intro ends hends hends'
      obtain ⟨b, -, rfl⟩ := List.mem_map.mp hends
      obtain ⟨pair, hpair, heq⟩ := List.mem_map.mp hends'
      obtain ⟨hfirst, hsecond⟩ := mem_of_mem_pairs hpair
      rcases Sym2.eq_iff.mp heq with ⟨rfl, -⟩ | ⟨-, rfl⟩
      · exact ha hfirst
      · exact ha hsecond

theorem sum_pairs_cons (f : α × α → ℚ) (a : α) (members : List α) :
    ((pairs (a :: members)).map f).sum
      = (members.map fun b => f (a, b)).sum + ((pairs members).map f).sum := by
  rw [pairs, List.map_append, List.sum_append, List.map_map]
  rfl

/-- **The pairs with a new element** have it first or second. -/
theorem sum_offDiag_insert [DecidableEq α] {members : Finset α} {a : α} (ha : a ∉ members)
    (f : α × α → ℚ) : ∑ pair ∈ (insert a members).offDiag, f pair
      = ∑ pair ∈ members.offDiag, f pair + ∑ b ∈ members, f (a, b) + ∑ b ∈ members, f (b, a) := by
  have hrow : Disjoint members.offDiag ({a} ×ˢ members) := by
    refine Finset.disjoint_left.mpr fun pair hpair hrow => ?_
    rw [Finset.mem_product, Finset.mem_singleton] at hrow
    exact ha (hrow.1 ▸ (Finset.mem_offDiag.mp hpair).1)
  have hcolumn : Disjoint (members.offDiag ∪ {a} ×ˢ members) (members ×ˢ {a}) := by
    refine Finset.disjoint_left.mpr fun pair hpair hcolumn => ?_
    rw [Finset.mem_product, Finset.mem_singleton] at hcolumn
    rcases Finset.mem_union.mp hpair with hpair | hpair
    · exact ha (hcolumn.2 ▸ (Finset.mem_offDiag.mp hpair).2.1)
    · exact ha (hcolumn.2 ▸ (Finset.mem_product.mp hpair).2)
  rw [Finset.offDiag_insert ha, Finset.sum_union hcolumn, Finset.sum_union hrow,
    Finset.sum_product, Finset.sum_product_right, Finset.sum_singleton, Finset.sum_singleton]

/-- **Every pair of members comes once**, so a symmetric sum over all ordered pairs is twice that
over these. -/
theorem sum_offDiag [DecidableEq α] {f : α × α → ℚ} (hf : ∀ a b, f (a, b) = f (b, a))
    {members : List α} (h : members.Nodup) :
    ∑ pair ∈ members.toFinset.offDiag, f pair = 2 * ((pairs members).map f).sum := by
  induction members with
  | nil => simp [pairs]
  | cons a members ih =>
    obtain ⟨ha, hmembers⟩ := List.nodup_cons.mp h
    have hnew : a ∉ members.toFinset := fun hmem => ha (List.mem_toFinset.mp hmem)
    have hrow : ∑ b ∈ members.toFinset, f (a, b) = (members.map fun b => f (a, b)).sum :=
      List.sum_toFinset _ hmembers
    simp only [List.toFinset_cons, sum_offDiag_insert hnew, hf _ a, hrow, ih hmembers,
      sum_pairs_cons]
    ring

end Pairs

end CodeClones.Window
