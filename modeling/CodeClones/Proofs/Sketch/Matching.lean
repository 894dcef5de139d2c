import CodeClones.Proofs.Sketch.Coefficients
import CodeClones.Proofs.Sketch.Collection
import CodeClones.Proofs.Sketch.Slot
import CodeClones.Proofs.Similarity.Double

/-!
# Proofs/Sketch/Matching — when two signatures agree in a slot

A slot of a list that is not empty is the value of a hash that minimises the function.  Drawn
functions tell residues apart, so two lists agree in a slot exactly if their minimising hashes have
the same residue, and lists without a common residue agree nowhere (`slots_match_iff`).
-/

namespace CodeClones.Sketcher

open Coefficients

variable {c : Coefficients} {hashes as bs : List UInt64} {a b hash : UInt64}

theorem residue_lt (hash : UInt64) : residue hash < prime :=
  UInt64.mod_lt _ (by decide)

/-- **A hash minimises a function** over some hashes. -/
def Minimises (c : Coefficients) (hashes : List UInt64) (hash : UInt64) : Prop :=
  hash ∈ hashes ∧ ∀ other ∈ hashes, c.apply (residue hash) ≤ c.apply (residue other)

theorem exists_minimises (c : Coefficients) (hne : hashes ≠ []) :
    ∃ hash, Minimises c hashes hash := by
  obtain ⟨hash, hmem, hleast⟩ := hashes.toFinset.exists_min_image
    (fun hash => (c.apply (residue hash)).toNat) (List.toFinset_nonempty_iff hashes |>.mpr hne)
  exact ⟨hash, List.mem_toFinset.mp hmem, fun other hother =>
    UInt64.le_iff_toNat_le.mpr (hleast other (List.mem_toFinset.mpr hother))⟩

/-- **The slot of a minimising hash.** -/
theorem Minimises.slot_eq (h : Minimises c hashes hash) :
    slot (hashes.map residue) c = c.apply (residue hash) :=
  UInt64.le_antisymm (slot_le (List.mem_map_of_mem h.1))
    (le_slot_iff.mpr (List.forall_mem_map.mpr h.2))

/-- **Slots agree** exactly if the minimising hashes have the same residue. -/
theorem slot_eq_iff (h : c.Drawn) (ha : Minimises c as a) (hb : Minimises c bs b) :
    slot (as.map residue) c = slot (bs.map residue) c ↔ residue a = residue b := by
  rw [ha.slot_eq, hb.slot_eq, h.apply_inj (residue_lt a) (residue_lt b)]

/-- Lists without a common residue agree in no slot. -/
theorem slot_ne_of_disjoint (h : c.Drawn) (has : as ≠ []) (hbs : bs ≠ [])
    (hdisjoint : ∀ a ∈ as, ∀ b ∈ bs, residue a ≠ residue b) :
    slot (as.map residue) c ≠ slot (bs.map residue) c := by
  obtain ⟨a, ha⟩ := exists_minimises c has
  obtain ⟨b, hb⟩ := exists_minimises c hbs
  rw [Ne, slot_eq_iff h ha hb]
  exact hdisjoint a ha.1 b hb.1

theorem getElem?_slots (sketcher : Sketcher) (hashes : List UInt64) (id : DocumentId) (i : Nat) :
    (sketcher.sketch hashes id).slots[i]?
      = sketcher.coefficients[i]?.map (slot (hashes.map residue)) := by
  rw [sketch, List.getElem?_toArray, List.getElem?_map]

theorem getElem?_slots_eq_iff {sketcher : Sketcher} {i : Nat}
    (hc : sketcher.coefficients[i]? = some c) (id id' : DocumentId) :
    (sketcher.sketch as id).slots[i]? = (sketcher.sketch bs id').slots[i]?
      ↔ slot (as.map residue) c = slot (bs.map residue) c := by
  rw [getElem?_slots, getElem?_slots, hc, Option.map_some, Option.map_some, Option.some_inj]

/-- **Signatures that agree in no slot** have the estimate zero. -/
theorem toFloat_overlap_of_ne {sketcher : Sketcher} (id id' : DocumentId)
    (h : ∀ c ∈ sketcher.coefficients, slot (as.map residue) c ≠ slot (bs.map residue) c) :
    ((sketcher.sketch as id).overlap (sketcher.sketch bs id')).toFloat = 0 := by
  have hshared : ((sketcher.sketch as id).slots.toList.zip
      (sketcher.sketch bs id').slots.toList).countP (fun entry => entry.1 == entry.2) = 0 := by
    change ((sketcher.coefficients.map (slot (as.map residue))).zip
      (sketcher.coefficients.map (slot (bs.map residue)))).countP _ = 0
    rw [List.zip_map', List.countP_eq_zero]
    refine List.forall_mem_map.mpr fun c hc => ?_
    rw [beq_iff_eq]
    exact h c hc
  rw [Signature.overlap, size_sketch, size_sketch, if_pos rfl, hshared]
  exact Double.toFloat_none _

/-- **What slots compare** — for every seed and number of functions.  The scale of each function is
at least one, its coefficients have 31 bits, neither its product nor its sum wraps on a residue, and
it tells residues apart.  So for lists that are not empty a slot agrees exactly if the hashes that
minimise its function have the same residue; lists without a common residue agree in no slot, and
the estimated overlap is zero. -/
theorem slots_match_iff (count : Nat) (seed : UInt64) :
    let sketcher := ofSeed count seed
    sketcher.coefficients.length = count
      ∧ (∀ hash, (residue hash).toNat = (Hash.mix hash).toNat % 4294967311)
      ∧ (∀ c ∈ sketcher.coefficients,
        (1 ≤ c.scale.toNat ∧ c.scale.toNat < 2 ^ 31 ∧ c.shift.toNat < 2 ^ 31)
        ∧ (∀ hash, c.scale.toNat * (residue hash).toNat + c.shift.toNat < 2 ^ 64
          ∧ (c.apply (residue hash)).toNat
            = (c.scale.toNat * (residue hash).toNat + c.shift.toNat) % 4294967311)
        ∧ ∀ x y : UInt64, x.toNat < 4294967311 → y.toNat < 4294967311 →
          c.apply x = c.apply y → x = y)
      ∧ ∀ as bs : List UInt64, as ≠ [] → bs ≠ [] → ∀ id id',
        (∀ (i : Nat) (c : Coefficients), sketcher.coefficients[i]? = some c →
          (∃ a, Minimises c as a) ∧ (∃ b, Minimises c bs b)
          ∧ ∀ a b, Minimises c as a → Minimises c bs b →
            ((sketcher.sketch as id).slots[i]? = (sketcher.sketch bs id').slots[i]?
              ↔ residue a = residue b))
        ∧ ((∀ a ∈ as, ∀ b ∈ bs, residue a ≠ residue b) →
          (∀ i < count, (sketcher.sketch as id).slots[i]? ≠ (sketcher.sketch bs id').slots[i]?)
          ∧ ((sketcher.sketch as id).overlap (sketcher.sketch bs id')).toFloat = 0) := by
  intro sketcher
  have hlength : sketcher.coefficients.length = count := Coefficients.length_ofSeed count seed
  have hdrawn : ∀ c ∈ sketcher.coefficients, c.Drawn := fun c hc => drawn_of_mem_ofSeed hc
  refine ⟨hlength, fun hash => UInt64.toNat_mod _ _, fun c hc => ?_,
    fun as bs has hbs id id' => ⟨fun i c hc => ?_, fun hdisjoint => ⟨fun i hi => ?_, ?_⟩⟩⟩
  · have hc := hdrawn c hc
    exact ⟨⟨hc.one_le_scale, hc.scale_lt, hc.shift_lt⟩,
      fun hash => ⟨hc.exact_lt (residue_lt hash), hc.toNat_apply (residue_lt hash)⟩,
      fun x y hx hy => (hc.apply_inj (UInt64.lt_iff_toNat_lt.mpr hx)
        (UInt64.lt_iff_toNat_lt.mpr hy)).mp⟩
  · refine ⟨exists_minimises c has, exists_minimises c hbs, fun a b ha hb => ?_⟩
    rw [getElem?_slots_eq_iff hc, slot_eq_iff (hdrawn c (List.mem_of_getElem? hc)) ha hb]
  · obtain ⟨c, hc⟩ : ∃ c, sketcher.coefficients[i]? = some c :=
      ⟨_, List.getElem?_eq_getElem (hlength.symm ▸ hi)⟩
    rw [Ne, getElem?_slots_eq_iff hc]
    exact slot_ne_of_disjoint (hdrawn c (List.mem_of_getElem? hc)) has hbs hdisjoint
  · exact toFloat_overlap_of_ne id id' fun c hc =>
      slot_ne_of_disjoint (hdrawn c hc) has hbs hdisjoint

/-- Two lists with the same minimising hash for the third function, and two without a common
residue. -/
theorem slots_match_of_nine :
    let sketcher := ofSeed 3 42
    let c : Coefficients := ⟨1460606295, 56326156⟩
    sketcher.coefficients[2]? = some c ∧ Minimises c [5, 9] 9 ∧ Minimises c [9, 11, 7] 9
      ∧ (sketcher.sketch [5, 9] 1).slots[2]? = (sketcher.sketch [9, 11, 7] 2).slots[2]?
      ∧ (∀ a ∈ [5, 9], ∀ b ∈ [11, 7], residue a ≠ residue b)
      ∧ ((sketcher.sketch [5, 9] 1).overlap (sketcher.sketch [11, 7] 2)).toFloat = 0 := by
  have hc : (ofSeed 3 42).coefficients[2]? = some ⟨1460606295, 56326156⟩ := by decide +kernel
  have hfirst : Minimises ⟨1460606295, 56326156⟩ [5, 9] 9 :=
    ⟨by decide, List.forall_mem_cons.mpr ⟨by decide +kernel,
      List.forall_mem_singleton.mpr (UInt64.le_refl _)⟩⟩
  have hsecond : Minimises ⟨1460606295, 56326156⟩ [9, 11, 7] 9 :=
    ⟨by decide, List.forall_mem_cons.mpr ⟨UInt64.le_refl _, List.forall_mem_cons.mpr
      ⟨by decide +kernel, List.forall_mem_singleton.mpr (by decide +kernel)⟩⟩⟩
  have hdisjoint : ∀ a ∈ [5, 9], ∀ b ∈ [11, 7], residue a ≠ residue b := by
    rw [List.forall_mem_cons, List.forall_mem_singleton]
    exact ⟨List.forall_mem_cons.mpr ⟨by decide +kernel,
        List.forall_mem_singleton.mpr (by decide +kernel)⟩,
      List.forall_mem_cons.mpr ⟨by decide +kernel,
        List.forall_mem_singleton.mpr (by decide +kernel)⟩⟩
  obtain ⟨-, -, -, hlists⟩ := slots_match_iff 3 42
  have hmatch := ((hlists [5, 9] [9, 11, 7] (by decide) (by decide) 1 2).1 2 _ hc).2.2 9 9
    hfirst hsecond
  have hzero := (hlists [5, 9] [11, 7] (by decide) (by decide) 1 2).2 hdisjoint
  exact ⟨hc, hfirst, hsecond, hmatch.mpr rfl, hdisjoint, hzero.2⟩
end CodeClones.Sketcher
