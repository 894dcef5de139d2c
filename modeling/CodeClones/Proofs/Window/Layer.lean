import CodeClones.Proofs.Window.Bucket

/-!
# Proofs/Window/Layer — a kind comes apart layer by layer

Among entries of one kind only clashes decide what joins.  The first *layer* takes, from left to
right, every entry that clashes with none taken before it, and the next layer does the same with
what is left; these are the parts of the kind (`mem_parted_iff_layer`).  Stretches of entries that
clash with nothing outside are peeled side by side, so a layer of all of them consists of their own
layers (`layer_flatMap`).
-/

namespace CodeClones.Window

variable {α β : Type}

/-- **May an entry join?** — if it clashes with no member. -/
def apart (clash : α → α → Bool) (members : List α) (a : α) : Bool :=
  !members.any fun member => clash member a

/-- **The layers** — what joins nothing but itself from left to right, then what is left over. -/
def layer (clash : α → α → Bool) : Nat → List α → List α
  | 0, entries => (collect (apart clash) [] entries).1
  | k + 1, entries => layer clash k (collect (apart clash) [] entries).2

/-! ## Collecting stretch by stretch -/

section Collect

variable {joins joins' : List α → α → Bool} {clash : α → α → Bool}

theorem collect_congr {entries : List α}
    (h : ∀ a ∈ entries, ∀ members, joins members a = joins' members a) (members : List α) :
    collect joins members entries = collect joins' members entries := by
  induction entries generalizing members with
  | nil => rfl
  | cons a entries ih =>
    have ih := ih fun b hb => h b (List.mem_cons_of_mem a hb)
    rw [collect, collect, h a List.mem_cons_self, ih, ih]

theorem collect_append (joins : List α → α → Bool) (members as bs : List α) :
    collect joins members (as ++ bs)
      = ((collect joins (collect joins members as).1 bs).1,
        (collect joins members as).2 ++ (collect joins (collect joins members as).1 bs).2) := by
  induction as generalizing members with
  | nil => rfl
  | cons a as ih =>
    rw [List.cons_append]
    by_cases hjoins : joins members a = true
    · rw [collect_cons_of_joins hjoins, collect_cons_of_joins hjoins, ih]
    · rw [collect_cons_of_not_joins hjoins, collect_cons_of_not_joins hjoins, ih,
        List.cons_append]

theorem collect_apart_map (clash : α → α → Bool) (f : β → α) (members entries : List β) :
    collect (apart clash) (members.map f) (entries.map f)
      = ((collect (apart fun a b => clash (f a) (f b)) members entries).1.map f,
        (collect (apart fun a b => clash (f a) (f b)) members entries).2.map f) := by
  induction entries generalizing members with
  | nil => rfl
  | cons a entries ih =>
    have happart : apart clash (members.map f) (f a)
        = apart (fun a b => clash (f a) (f b)) members a := by
      rw [apart, apart, List.any_map]
      rfl
    rw [List.map_cons]
    by_cases hjoins : apart (fun a b => clash (f a) (f b)) members a = true
    · have ih := ih (members ++ [a])
      rw [List.map_append, List.map_singleton] at ih
      rw [collect_cons_of_joins hjoins, collect_cons_of_joins (happart.trans hjoins), ih]
    · rw [collect_cons_of_not_joins hjoins, collect_cons_of_not_joins (by rwa [happart]), ih,
        List.map_cons]

/-- Members that clash with nothing to come do not matter. -/
theorem collect_apart_append {others members entries : List α}
    (h : ∀ a ∈ others, ∀ b ∈ entries, clash a b = false) :
    collect (apart clash) (others ++ members) entries
      = (others ++ (collect (apart clash) members entries).1,
        (collect (apart clash) members entries).2) := by
  induction entries generalizing members with
  | nil => rfl
  | cons b entries ih =>
    have hfree : others.any (fun member => clash member b) = false :=
      List.any_eq_false.mpr fun a ha => Bool.eq_false_iff.mp (h a ha b List.mem_cons_self)
    have happart : apart clash (others ++ members) b = apart clash members b := by
      rw [apart, apart, List.any_append, hfree, Bool.false_or]
    have hrest := fun a ha c hc => h a ha c (List.mem_cons_of_mem b hc)
    by_cases hjoins : apart clash members b = true
    · rw [collect_cons_of_joins (happart.trans hjoins), collect_cons_of_joins hjoins,
        List.append_assoc, ih hrest]
    · rw [collect_cons_of_not_joins (by rwa [happart]), collect_cons_of_not_joins hjoins, ih hrest]

theorem mem_of_mem_collect_fst {members entries : List α} {a : α}
    (h : a ∈ (collect joins members entries).1) : a ∈ members ++ entries :=
  (perm_collect joins members entries).subset (List.mem_append_left _ h)

theorem mem_of_mem_collect_snd {members entries : List α} {a : α}
    (h : a ∈ (collect joins members entries).2) : a ∈ members ++ entries :=
  (perm_collect joins members entries).subset (List.mem_append_right _ h)

/-- **Stretches that do not clash are collected side by side.** -/
theorem collect_apart_of_free {as bs : List α} (h : ∀ a ∈ as, ∀ b ∈ bs, clash a b = false) :
    collect (apart clash) [] (as ++ bs)
      = ((collect (apart clash) [] as).1 ++ (collect (apart clash) [] bs).1,
        (collect (apart clash) [] as).2 ++ (collect (apart clash) [] bs).2) := by
  have hfree : ∀ a ∈ (collect (apart clash) [] as).1, ∀ b ∈ bs, clash a b = false :=
    fun a ha => h a (mem_of_mem_collect_fst ha)
  rw [collect_append, ← List.append_nil (collect (apart clash) [] as).1,
    collect_apart_append hfree, List.append_nil]

end Collect

/-! ## Layers -/

section Layers

variable {clash : α → α → Bool} {k : Nat}

@[simp] theorem layer_nil (clash : α → α → Bool) (k : Nat) : layer clash k [] = [] := by
  induction k with
  | zero => rfl
  | succ k ih => exact ih

theorem layer_append {as bs : List α} (h : ∀ a ∈ as, ∀ b ∈ bs, clash a b = false) :
    layer clash k (as ++ bs) = layer clash k as ++ layer clash k bs := by
  induction k generalizing as bs with
  | zero => rw [layer, layer, layer, collect_apart_of_free h]
  | succ k ih =>
    rw [layer, layer, layer, collect_apart_of_free h]
    exact ih fun a ha b hb => h a (mem_of_mem_collect_snd ha) b (mem_of_mem_collect_snd hb)

/-- **A layer of stretches that do not clash** consists of their own layers. -/
theorem layer_flatMap {stretches : List β} {f : β → List α}
    (h : stretches.Pairwise fun x y => ∀ a ∈ f x, ∀ b ∈ f y, clash a b = false) :
    layer clash k (stretches.flatMap f) = stretches.flatMap fun x => layer clash k (f x) := by
  induction stretches with
  | nil => exact layer_nil clash k
  | cons x stretches ih =>
    obtain ⟨hx, hstretches⟩ := List.pairwise_cons.mp h
    rw [List.flatMap_cons, List.flatMap_cons, layer_append, ih hstretches]
    intro a ha b hb
    obtain ⟨y, hy, hb⟩ := List.mem_flatMap.mp hb
    exact hx y hy a ha b hb

theorem layer_map (clash : α → α → Bool) (f : β → α) (k : Nat) (entries : List β) :
    layer clash k (entries.map f) = (layer (fun a b => clash (f a) (f b)) k entries).map f := by
  have hcollect := fun entries => collect_apart_map clash f [] entries
  rw [List.map_nil] at hcollect
  induction k generalizing entries with
  | zero => rw [layer, layer, hcollect]
  | succ k ih => rw [layer, layer, hcollect, ih]

/-- **The parts of a kind are its layers** — if among some entries nothing but a clash keeps one
from joining. -/
theorem mem_parted_iff_layer {joins : α → List α → α → Bool} {entries part : List α}
    (h : ∀ first ∈ entries, ∀ a ∈ entries, ∀ members,
      joins first members a = apart clash members a) :
    part ∈ parted joins entries ↔ part ≠ [] ∧ ∃ k, part = layer clash k entries := by
  fun_induction parted joins entries with
  | case1 => simp
  | case2 first rest parts ih =>
    have hparts : collect (apart clash) [] (first :: rest) = parts := by
      rw [collect_cons_of_joins (by rfl), List.nil_append]
      exact (collect_congr (fun a ha => h first List.mem_cons_self a
        (List.mem_cons_of_mem first ha)) [first]).symm
    have hne : parts.1 ≠ [] :=
      List.ne_nil_of_mem ((prefix_collect (joins first) [first] rest).subset List.mem_cons_self)
    have hleft : ∀ {a}, a ∈ parts.2 → a ∈ first :: rest := fun ha => mem_of_mem_collect_snd ha
    rw [List.mem_cons, ih fun x hx a ha => h x (hleft hx) a (hleft ha)]
    constructor
    · rintro (rfl | ⟨hpart, k, rfl⟩)
      · exact ⟨hne, 0, by rw [layer, hparts]⟩
      · exact ⟨hpart, k + 1, by rw [layer, hparts]⟩
    · rintro ⟨hpart, k, rfl⟩
      cases k with
      | zero => exact Or.inl (by rw [layer, hparts])
      | succ k =>
        rw [layer, hparts] at hpart ⊢
        exact Or.inr ⟨hpart, k, rfl⟩

end Layers

end CodeClones.Window
