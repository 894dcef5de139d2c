import CodeClones.Proofs.Graph.Classes

/-!
# Proofs/Graph/Renumbering — what other numbers of the nodes do not change

Lists that are permuted have the same entries under other positions (`exists_renumbering`).  If a
relation of nodes is the same under other numbers, then so are the pairs of related nodes
(`ListsPairs.perm_renumbered`), what they connect (`eqvGen_renumbered`) and the classes
(`ListsClasses.perm_renumbered`).  Only the order of the pairs, which end of a pair comes first and
the order of the classes depend on the numbers.
-/

namespace CodeClones

/-! ## Renumberings -/

/-- The renumbering behind one more entry in front, which stays the first. -/
def behindFirst (π : Equiv.Perm ℕ) : Equiv.Perm ℕ where
  toFun
    | 0 => 0
    | number + 1 => π number + 1
  invFun
    | 0 => 0
    | number + 1 => π.symm number + 1
  left_inv := by rintro (_ | number) <;> simp
  right_inv := by rintro (_ | number) <;> simp

/-- **Permuted lists have the same entries under other numbers.** -/
theorem exists_renumbering {α : Type} {entries entries' : List α} (h : entries.Perm entries') :
    ∃ π : Equiv.Perm ℕ, ∀ number, entries'[π number]? = entries[number]? := by
  induction h with
  | nil => exact ⟨Equiv.refl ℕ, fun _ => rfl⟩
  | cons entry _ ih =>
    obtain ⟨π, hπ⟩ := ih
    refine ⟨behindFirst π, fun number => ?_⟩
    cases number with
    | zero => rfl
    | succ number => exact hπ number
  | swap first second rest =>
    refine ⟨Equiv.swap 0 1, fun number => ?_⟩
    match number with
    | 0 => rfl
    | 1 => rfl
    | number + 2 =>
      rw [Equiv.swap_apply_of_ne_of_ne (Nat.succ_ne_zero _) (by omega)]
      rfl
  | trans _ _ ih ih' =>
    obtain ⟨π, hπ⟩ := ih
    obtain ⟨π', hπ'⟩ := ih'
    exact ⟨π.trans π', fun number => (hπ' _).trans (hπ number)⟩

theorem toFinset_map_renumbering (π : Equiv.Perm ℕ) (members : List ℕ) :
    (members.map π).toFinset = members.toFinset.map π.toEmbedding := by
  ext b
  obtain ⟨a, rfl⟩ := π.surjective b
  simp

namespace CloneGraph

variable {r r' : ℕ → ℕ → Prop} {π : Equiv.Perm ℕ}

/-- What relates nodes to related nodes relates connected nodes to connected nodes. -/
theorem eqvGen_map {f : ℕ → ℕ} (h : ∀ a b, r a b → r' (f a) (f b)) {a b : ℕ}
    (hab : Relation.EqvGen r a b) : Relation.EqvGen r' (f a) (f b) := by
  induction hab with
  | rel a b hab => exact .rel _ _ (h a b hab)
  | refl a => exact .refl _
  | symm a b _ ih => exact ih.symm
  | trans a b c _ _ ih ih' => exact ih.trans _ _ _ ih'

/-- **A renumbering keeps what is connected**, if it keeps what is related. -/
theorem eqvGen_renumbered (h : ∀ a b, r' (π a) (π b) ↔ r a b) (a b : ℕ) :
    Relation.EqvGen r' (π a) (π b) ↔ Relation.EqvGen r a b := by
  have hback : ∀ a b, r' a b → r (π.symm a) (π.symm b) := fun a b hab => by
    rwa [← h, π.apply_symm_apply, π.apply_symm_apply]
  refine ⟨fun hab => ?_, eqvGen_map fun a b => (h a b).mpr⟩
  simpa using eqvGen_map hback hab

/-! ## Pairs of related nodes -/

/-- **The pairs of a symmetric relation**, each with the smaller number first. -/
structure ListsPairs (r : ℕ → ℕ → Prop) (pairs : List (ℕ × ℕ)) : Prop where
  mem_iff : ∀ a b, (a, b) ∈ pairs ↔ a < b ∧ r a b
  nodup : pairs.Nodup
  symm : ∀ {a b}, r a b → r b a

namespace ListsPairs

variable {pairs pairs' : List (ℕ × ℕ)} (h : ListsPairs r pairs)

include h

theorem mem_map_iff (a b : ℕ) : s(a, b) ∈ pairs.map (fun pair => s(pair.1, pair.2))
    ↔ a ≠ b ∧ r a b := by
  rw [List.mem_map]
  constructor
  · rintro ⟨⟨x, y⟩, hpair, heq⟩
    obtain ⟨hlt, hxy⟩ := (h.mem_iff x y).mp hpair
    rcases Sym2.eq_iff.mp heq with ⟨rfl, rfl⟩ | ⟨rfl, rfl⟩
    · exact ⟨Nat.ne_of_lt hlt, hxy⟩
    · exact ⟨Nat.ne_of_gt hlt, h.symm hxy⟩
  · rintro ⟨hne, hab⟩
    rcases Nat.lt_or_gt_of_ne hne with hlt | hlt
    · exact ⟨(a, b), (h.mem_iff a b).mpr ⟨hlt, hab⟩, rfl⟩
    · exact ⟨(b, a), (h.mem_iff b a).mpr ⟨hlt, h.symm hab⟩, Sym2.eq_swap⟩

theorem nodup_map : (pairs.map fun pair => s(pair.1, pair.2)).Nodup := by
  refine h.nodup.map_on ?_
  rintro ⟨a, b⟩ hab ⟨c, d⟩ hcd heq
  have hlt := ((h.mem_iff a b).mp hab).1
  have hlt' := ((h.mem_iff c d).mp hcd).1
  rcases Sym2.eq_iff.mp heq with ⟨rfl, rfl⟩ | ⟨rfl, rfl⟩
  · rfl
  · exact absurd hlt (Nat.lt_asymm hlt')

/-- **A renumbering carries the pairs of one list to those of the other**, as unordered pairs. -/
theorem perm_renumbered (h' : ListsPairs r' pairs') (hr : ∀ a b, r' (π a) (π b) ↔ r a b) :
    (pairs.map fun pair => s(π pair.1, π pair.2)).Perm
      (pairs'.map fun pair => s(pair.1, pair.2)) := by
  have hmap : (pairs.map fun pair => s(π pair.1, π pair.2))
      = (pairs.map fun pair => s(pair.1, pair.2)).map (Sym2.map π) := by
    rw [List.map_map]
    rfl
  have hinjective := Sym2.map.injective π.injective
  rw [hmap]
  refine (List.perm_ext_iff_of_nodup (h.nodup_map.map hinjective) h'.nodup_map).mpr fun pair => ?_
  induction pair with | h c d =>
  obtain ⟨a, rfl⟩ := π.surjective c
  obtain ⟨b, rfl⟩ := π.surjective d
  rw [← Sym2.map_mk, List.mem_map_of_injective hinjective, h.mem_map_iff, Sym2.map_mk,
    h'.mem_map_iff, hr, π.injective.ne_iff]

end ListsPairs

/-! ## Classes -/

namespace ListsClasses

variable {classes classes' : List (List ℕ)} (h : ListsClasses r classes)

include h

theorem nodup_of_mem {members : List ℕ} (hmembers : members ∈ classes) : members.Nodup :=
  ((h.mem_iff members).mp hmembers).2.1.imp Nat.ne_of_lt

/-- A class as a set. -/
theorem mem_map_toFinset_iff (members : Finset ℕ) : members ∈ classes.map List.toFinset
    ↔ 2 ≤ members.card ∧ ∀ a ∈ members, ∀ b, b ∈ members ↔ r a b := by
  rw [List.mem_map]
  constructor
  · rintro ⟨c, hc, rfl⟩
    obtain ⟨htwo, -, hwhole⟩ := (h.mem_iff c).mp hc
    rw [List.toFinset_card_of_nodup (h.nodup_of_mem hc)]
    simp only [List.mem_toFinset]
    exact ⟨htwo, hwhole⟩
  · rintro ⟨htwo, hwhole⟩
    refine ⟨members.sort (· ≤ ·), (h.mem_iff _).mpr ⟨?_, ?_, ?_⟩, members.sort_toFinset (· ≤ ·)⟩
    · rwa [Finset.length_sort]
    · exact members.sortedLT_sort.pairwise
    · simpa only [Finset.mem_sort] using hwhole

theorem nodup_map_toFinset : (classes.map List.toFinset).Nodup := by
  refine h.nodup.map_on fun c hc d hd heq => ?_
  have hascending := ((h.mem_iff c).mp hc).2.1
  have hascending' := ((h.mem_iff d).mp hd).2.1
  refine hascending.eq_of_mem_iff hascending' fun a => ?_
  rw [← List.mem_toFinset, heq, List.mem_toFinset]

/-- **A renumbering carries the classes of one list to those of the other**, as sets. -/
theorem perm_renumbered (h' : ListsClasses r' classes') (hr : ∀ a b, r' (π a) (π b) ↔ r a b) :
    (classes.map fun members => (members.map π).toFinset).Perm (classes'.map List.toFinset) := by
  have hmap : (classes.map fun members => (members.map π).toFinset)
      = (classes.map List.toFinset).map π.finsetCongr := by
    rw [List.map_map]
    exact List.map_congr_left fun members _ => toFinset_map_renumbering π members
  rw [hmap]
  refine (List.perm_ext_iff_of_nodup (h.nodup_map_toFinset.map π.finsetCongr.injective)
    h'.nodup_map_toFinset).mpr fun set => ?_
  obtain ⟨members, rfl⟩ := π.finsetCongr.surjective set
  rw [List.mem_map_of_injective π.finsetCongr.injective, h.mem_map_toFinset_iff,
    h'.mem_map_toFinset_iff, Equiv.finsetCongr_apply, Finset.card_map, Finset.forall_mem_map]
  refine and_congr_right fun _ => forall₂_congr fun a _ => ?_
  refine π.forall_congr fun {b} => ?_
  simp only [Equiv.coe_toEmbedding, Finset.mem_map_equiv, Equiv.symm_apply_apply, hr]

end ListsClasses

end CloneGraph

end CodeClones
