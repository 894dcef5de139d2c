import CodeClones.Detect.Pairwise
import CodeClones.Proofs.Shingle.Overlap
import CodeClones.Proofs.Similarity.Quotient
import CodeClones.Proofs.Sketch.Matching

/-!
# Proofs/Detect/Extremes — where the estimated and the exact score of two texts agree

An exact score of one means that both texts have the same hashes (`mem_iff_of_shared_eq`), so all
slots are equal; hashes without a common residue are not shared and agree in no slot.  So both
scores are one, or both zero, except for two texts without any shingle: nothing is shared, but all
slots are empty and thus equal (`scores_agree_at_extremes`).
-/

namespace CodeClones

namespace Overlap

variable {as bs : List UInt64}

theorem shared_le_total (has : as.Pairwise (· < ·)) (hbs : bs.Pairwise (· < ·)) :
    (ofAscending as bs).shared ≤ (ofAscending as bs).total := by
  rw [ofAscending_eq_jaccard has hbs]
  change (as.toFinset ∩ bs.toFinset).card ≤ (as.toFinset ∪ bs.toFinset).card
  exact Finset.card_le_card Finset.inter_subset_union

/-- **Everything is shared** only by lists with the same members. -/
theorem mem_iff_of_shared_eq (has : as.Pairwise (· < ·)) (hbs : bs.Pairwise (· < ·))
    (h : (ofAscending as bs).shared = (ofAscending as bs).total) (hash : UInt64) :
    hash ∈ as ↔ hash ∈ bs := by
  rw [ofAscending_eq_jaccard has hbs] at h
  have hset : as.toFinset ∩ bs.toFinset = as.toFinset ∪ bs.toFinset :=
    Finset.eq_of_subset_of_card_le Finset.inter_subset_union h.ge
  rw [← List.mem_toFinset, inf_eq_sup.mp hset, List.mem_toFinset]

/-- **Nothing is shared** by lists without a common member. -/
theorem toFloat_ofAscending_of_disjoint (has : as.Pairwise (· < ·)) (hbs : bs.Pairwise (· < ·))
    (h : as.Disjoint bs) : (ofAscending as bs).toFloat = 0 := by
  have hdisjoint : Disjoint as.toFinset bs.toFinset := List.disjoint_toFinset_iff_disjoint.mpr h
  rw [ofAscending_eq_jaccard has hbs, jaccard, Finset.disjoint_iff_inter_eq_empty.mp hdisjoint,
    Finset.card_empty]
  exact Double.toFloat_none _

/-- The rational score is one if everything is shared, and only then. -/
theorem score_eq_one_iff {o : Overlap} : (o.score : ℚ) = 1 ↔ 0 < o.total ∧ o.shared = o.total := by
  rw [score_eq]
  rcases Nat.eq_zero_or_pos o.total with hzero | hpos
  · simp [hzero]
  · rw [div_eq_one_iff_eq (Nat.cast_ne_zero.mpr (Nat.ne_of_gt hpos)), Nat.cast_inj,
      and_iff_right hpos]

end Overlap

namespace Sketcher

variable {as bs : List UInt64} {c : Coefficients}

/-- A slot of a list that is not empty is below the modulus. -/
theorem slot_lt (h : as ≠ []) : slot (as.map residue) c < Coefficients.prime := by
  obtain ⟨a, ha⟩ := exists_minimises c h
  rw [ha.slot_eq, Coefficients.apply]
  exact UInt64.mod_lt _ (by decide)

/-- So it is not empty. -/
theorem slot_ne_slot_nil (h : as ≠ []) : slot (as.map residue) c ≠ slot [] c := by
  intro heq
  have hlt := slot_lt (c := c) h
  rw [heq, slot, List.foldl_nil] at hlt
  exact absurd hlt (by decide)

/-- **Lists without a common residue agree in no slot** unless both are empty. -/
theorem slot_ne_of_disjoint_or (h : c.Drawn) (hne : as ≠ [] ∨ bs ≠ [])
    (hdisjoint : ∀ a ∈ as, ∀ b ∈ bs, residue a ≠ residue b) :
    slot (as.map residue) c ≠ slot (bs.map residue) c := by
  rcases eq_or_ne as [] with rfl | has
  · exact (slot_ne_slot_nil (hne.resolve_left fun h => h rfl)).symm
  · rcases eq_or_ne bs [] with rfl | hbs
    · exact slot_ne_slot_nil has
    · exact slot_ne_of_disjoint h has hbs hdisjoint

/-- **The estimate is one** if the hashes are the same, for then all slots are. -/
theorem toFloat_overlap_of_mem_iff {sketcher : Sketcher} (id id' : DocumentId)
    (hpos : 0 < sketcher.coefficients.length) (hlt : sketcher.coefficients.length < 2 ^ 100)
    (h : ∀ hash, hash ∈ as ↔ hash ∈ bs) :
    ((sketcher.sketch as id).overlap (sketcher.sketch bs id')).toFloat = 1 := by
  have hshared : ((sketcher.sketch as id).slots.toList.zip
      (sketcher.sketch as id').slots.toList).countP (fun entry => entry.1 == entry.2)
        = sketcher.coefficients.length := by
    change ((sketcher.coefficients.map (slot (as.map residue))).zip
      (sketcher.coefficients.map (slot (as.map residue)))).countP _ = _
    rw [List.zip_map', List.countP_map]
    exact List.countP_eq_length.mpr fun c _ => beq_self_eq_true _
  rw [Signature.overlap, size_sketch, size_sketch, if_pos rfl, ← sketch_congr sketcher id' h,
    hshared]
  exact Double.toFloat_full hpos hlt

end Sketcher

namespace Detect.TextComparer

variable {comparer : TextComparer} {a b : KindedText}

theorem pairwise_hashes (comparer : TextComparer) (text : KindedText) :
    (comparer.hashes text).Pairwise (· < ·) :=
  comparer.shingler.pairwise_hashes text.tokens text.kinds

/-- **No hashes** for a text that is shorter than a shingle, and only for one. -/
theorem hashes_eq_nil_iff :
    comparer.hashes a = [] ↔ a.tokens.length < comparer.shingler.size :=
  Shingler.hashes_eq_nil_iff

/-- **The exact overlap is that of the shingles**, each counted once for its hash. -/
theorem exact_eq_jaccard (comparer : TextComparer) (a b : KindedText) :
    let hashes := fun text : KindedText =>
      ((comparer.shingler.shingles text.tokens text.kinds).map Shingle.hash).toFinset
    comparer.exact a b = Overlap.jaccard (hashes a) (hashes b) := by
  have hset : ∀ text : KindedText, (comparer.hashes text).toFinset
      = ((comparer.shingler.shingles text.tokens text.kinds).map Shingle.hash).toFinset := by
    intro text
    ext hash
    rw [List.mem_toFinset, List.mem_toFinset, List.mem_map, hashes, Shingler.mem_hashes_iff]
  rw [exact, Overlap.ofAscending_eq_jaccard (pairwise_hashes _ _) (pairwise_hashes _ _), hset, hset]

theorem exact_of_short (ha : a.tokens.length < comparer.shingler.size)
    (hb : b.tokens.length < comparer.shingler.size) : comparer.exact a b = ⟨0, 0⟩ := by
  rw [exact, hashes_eq_nil_iff.mpr ha, hashes_eq_nil_iff.mpr hb, Overlap.ofAscending,
    Overlap.commonCount]
  rfl

section Drawn

variable {count : Nat} {seed : UInt64} (hsketcher : comparer.sketcher = .ofSeed count seed)
  (hpos : 1 ≤ count) (hlt : count < 2 ^ 64)

include hsketcher hpos hlt

/-- **Where everything is shared, the estimate is one**, also if that is nothing. -/
theorem estimated_eq_one (h : (comparer.exact a b).shared = (comparer.exact a b).total) :
    (comparer.estimated a b).toFloat = 1 := by
  have hlength : comparer.sketcher.coefficients.length = count := by
    rw [hsketcher]
    exact Coefficients.length_ofSeed count seed
  exact Sketcher.toFloat_overlap_of_mem_iff 0 1 (by omega) (by omega)
    (Overlap.mem_iff_of_shared_eq (comparer.pairwise_hashes a) (comparer.pairwise_hashes b) h)

omit hpos hlt

/-- **Where no residue is common, the estimate is zero**, unless no text has a shingle. -/
theorem estimated_eq_zero
    (hlong : ¬(a.tokens.length < comparer.shingler.size ∧ b.tokens.length < comparer.shingler.size))
    (hdisjoint : ∀ x ∈ comparer.hashes a, ∀ y ∈ comparer.hashes b,
      Sketcher.residue x ≠ Sketcher.residue y) : (comparer.estimated a b).toFloat = 0 := by
  have hne : comparer.hashes a ≠ [] ∨ comparer.hashes b ≠ [] := by
    rw [← not_and_or]
    rwa [← hashes_eq_nil_iff, ← hashes_eq_nil_iff] at hlong
  refine Sketcher.toFloat_overlap_of_ne 0 1 fun c hc => ?_
  rw [hsketcher] at hc
  exact Sketcher.slot_ne_of_disjoint_or (Coefficients.drawn_of_mem_ofSeed hc) hne hdisjoint

end Drawn

/-- **The estimated and the exact score agree at the extremes** — for texts of any length, with any
kinds, shingles of any length, and one hash function or more.  If the exact quotient of the two
counts is one, the estimate is one; so is it if the exact score as a double is one, as long as there
are fewer than `2 ^ 53` hashes, which a double tells apart.  If no hash of one text has the residue
of a hash of the other, both scores are zero, unless neither text is as long as a shingle: then the
exact score is zero by convention, but the slots of both are empty and the estimate is one. -/
theorem scores_agree_at_extremes (size count : Nat) (renames : Bool) (seed : UInt64)
    (hpos : 1 ≤ count) (hlt : count < 2 ^ 64) (a b : KindedText) :
    let comparer : TextComparer := ⟨.ofSize size renames, .ofSeed count seed⟩
    let short := fun text : KindedText => text.tokens.length < comparer.shingler.size
    (((comparer.exact a b).score : ℚ) = 1 → (comparer.estimated a b).toFloat = 1)
      ∧ ((comparer.exact a b).total < 2 ^ 53 → (comparer.exact a b).toFloat = 1 →
        (comparer.estimated a b).toFloat = 1)
      ∧ (¬(short a ∧ short b) →
        (∀ x ∈ comparer.hashes a, ∀ y ∈ comparer.hashes b,
          (Hash.mix x).toNat % 4294967311 ≠ (Hash.mix y).toNat % 4294967311) →
        (comparer.exact a b).toFloat = 0 ∧ (comparer.estimated a b).toFloat = 0)
      ∧ (short a ∧ short b →
        (comparer.exact a b).toFloat = 0 ∧ (comparer.estimated a b).toFloat = 1) := by
  intro comparer short
  have hone : (comparer.exact a b).shared = (comparer.exact a b).total →
      (comparer.estimated a b).toFloat = 1 := estimated_eq_one rfl hpos hlt
  have hle : (comparer.exact a b).shared ≤ (comparer.exact a b).total :=
    Overlap.shared_le_total (pairwise_hashes _ _) (pairwise_hashes _ _)
  refine ⟨fun hscore => hone (Overlap.score_eq_one_iff.mp hscore).2, fun htotal hscore =>
    hone ((Double.toFloat_eq_one_iff hle htotal).mp hscore).2, fun hlong hdisjoint => ?_,
    fun ⟨ha, hb⟩ => ?_⟩
  · have hresidues : ∀ x ∈ comparer.hashes a, ∀ y ∈ comparer.hashes b,
        Sketcher.residue x ≠ Sketcher.residue y := fun x hx y hy heq => by
      refine hdisjoint x hx y hy ?_
      have hvalues := congrArg UInt64.toNat heq
      rwa [Sketcher.residue, Sketcher.residue, UInt64.toNat_mod, UInt64.toNat_mod] at hvalues
    refine ⟨?_, estimated_eq_zero rfl hlong hresidues⟩
    exact Overlap.toFloat_ofAscending_of_disjoint (pairwise_hashes _ _) (pairwise_hashes _ _)
      fun hash ha hb => hresidues hash ha hash hb rfl
  · have hnone : comparer.exact a b = ⟨0, 0⟩ := exact_of_short ha hb
    exact ⟨by rw [hnone]; exact Double.toFloat_none 0, hone (by rw [hnone])⟩

/-- An operator once and twice, another operator, and a text without a shingle. -/
theorem scores_agree_of_operators :
    let comparer : TextComparer := ⟨.ofSize 1 true, .ofSeed 4 42⟩
    let once : KindedText := ⟨["+"], [.operator]⟩
    let twice : KindedText := ⟨["+", "+"], [.operator, .operator]⟩
    let other : KindedText := ⟨["-"], [.operator]⟩
    let empty : KindedText := ⟨[], []⟩
    ((comparer.exact once twice).score : ℚ) = 1
      ∧ (comparer.exact once twice).total < 2 ^ 53 ∧ (comparer.exact once twice).toFloat = 1
      ∧ (comparer.estimated once twice).toFloat = 1
      ∧ (∀ x ∈ comparer.hashes once, ∀ y ∈ comparer.hashes other,
        (Hash.mix x).toNat % 4294967311 ≠ (Hash.mix y).toNat % 4294967311)
      ∧ (comparer.exact once other).toFloat = 0 ∧ (comparer.estimated once other).toFloat = 0
      ∧ (comparer.exact empty empty).toFloat = 0
      ∧ (comparer.estimated empty empty).toFloat = 1 := by
  intro comparer once twice other empty
  have hexact : comparer.exact once twice = ⟨1, 1⟩ := by
    rw [exact_eq_jaccard]
    decide +kernel
  have hscore : ((comparer.exact once twice).score : ℚ) = 1 := by
    rw [hexact, Overlap.score_eq_one_iff]
    decide
  have htotal : (comparer.exact once twice).total < 2 ^ 53 := by
    rw [hexact]
    decide
  have hfloat : (comparer.exact once twice).toFloat = 1 := by
    rw [hexact]
    exact Double.toFloat_full (by decide) (by decide)
  have hshingles : ∀ x ∈ comparer.shingler.shingles once.tokens once.kinds,
      ∀ y ∈ comparer.shingler.shingles other.tokens other.kinds,
      (Hash.mix x.hash).toNat % 4294967311 ≠ (Hash.mix y.hash).toNat % 4294967311 := by
    decide +kernel
  have hdisjoint : ∀ x ∈ comparer.hashes once, ∀ y ∈ comparer.hashes other,
      (Hash.mix x).toNat % 4294967311 ≠ (Hash.mix y).toNat % 4294967311 := by
    intro x hx y hy
    obtain ⟨shingle, hshingle, rfl⟩ := Shingler.mem_hashes_iff.mp hx
    obtain ⟨shingle', hshingle', rfl⟩ := Shingler.mem_hashes_iff.mp hy
    exact hshingles shingle hshingle shingle' hshingle'
  have hagree := scores_agree_at_extremes 1 4 true 42 (by decide) (by decide)
  obtain ⟨-, hone, -, -⟩ := hagree once twice
  obtain ⟨-, -, hzero, -⟩ := hagree once other
  obtain ⟨-, -, -, hempty⟩ := hagree empty empty
  obtain ⟨hexact_zero, hestimated_zero⟩ := hzero (by decide) hdisjoint
  obtain ⟨hexact_empty, hestimated_empty⟩ := hempty (by decide)
  exact ⟨hscore, htotal, hfloat, hone htotal hfloat, hdisjoint, hexact_zero, hestimated_zero,
    hexact_empty, hestimated_empty⟩

/-- **The scores need not agree at zero** — one token each, and shingles of five. -/
theorem not_forall_scores_agree :
    ¬ ∀ (size count : Nat) (a b : KindedText), 1 ≤ count → count < 2 ^ 64 →
      let comparer : TextComparer := ⟨.ofSize size true, .ofSeed count 42⟩
      ((comparer.exact a b).toFloat = 1 → (comparer.estimated a b).toFloat = 1)
        ∧ ((comparer.exact a b).toFloat = 0 →
          (∀ x ∈ comparer.hashes a, ∀ y ∈ comparer.hashes b,
            (Hash.mix x).toNat % 4294967311 ≠ (Hash.mix y).toNat % 4294967311) →
          (comparer.estimated a b).toFloat = 0) := by
  intro hagree
  let comparer : TextComparer := ⟨.ofSize 5 true, .ofSeed 128 42⟩
  let a : KindedText := ⟨["a"], [.identifier]⟩
  let b : KindedText := ⟨["b"], [.identifier]⟩
  have hexact : comparer.exact a b = ⟨0, 0⟩ := exact_of_short (by decide) (by decide)
  have hnone : comparer.hashes a = [] :=
    hashes_eq_nil_iff.mpr (by decide)
  have hestimated : (comparer.estimated a b).toFloat = 1 :=
    estimated_eq_one rfl (by decide) (by decide) (by rw [hexact])
  have hzero := (hagree 5 128 a b (by decide) (by decide)).2
    (by rw [hexact]; exact Double.toFloat_none 0)
    (fun x hx => absurd (hnone ▸ hx) List.not_mem_nil)
  exact absurd (hestimated.symm.trans hzero) (by decide)

end Detect.TextComparer

end CodeClones
