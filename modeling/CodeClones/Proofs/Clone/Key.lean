import CodeClones.Clone.Group
import CodeClones.Proofs.Order.Lexical
import CodeClones.Proofs.Order.Sorting
import CodeClones.Proofs.Text.Bytes
import CodeClones.Proofs.Text.Joined

/-!
# Proofs/Clone/Key — what a key tells about its group

Locations are joined by bars.  As long as no name of a file has a bar right after what reads as a
location, the key of a group can be taken apart again (`perm_locations_of_plain`).  Within a
location the last colon ends the name of the file (`file_eq_of_location_eq`).  The order of the
clones does not matter (`key_eq_of_perm`), so groups that show the same clones have the same keys
(`perm_keys`).
-/

namespace CodeClones

/-! ## Numbers in decimal notation -/

theorem isDigit_of_mem_repr {n : Nat} {c : Char} (h : c ∈ n.repr.toList) : c.isDigit = true := by
  rw [Nat.repr, String.toList_ofList] at h
  exact Nat.isDigit_of_mem_toDigits (by decide) (by decide) h

theorem isDigit_or_eq_of_mem_toString {i : Int} {c : Char} (h : c ∈ (toString i).toList) :
    c.isDigit = true ∨ c = '-' := by
  match i with
  | .ofNat n => exact Or.inl (isDigit_of_mem_repr h)
  | .negSucc n =>
    change c ∈ ("-" ++ n.succ.repr).toList at h
    rw [String.toList_append] at h
    rcases List.mem_append.mp h with h | h
    · exact Or.inr (List.mem_singleton.mp h)
    · exact Or.inl (isDigit_of_mem_repr h)

theorem notMem_toString {i : Int} {c : Char} (hdigit : c.isDigit = false) (hminus : c ≠ '-') :
    c ∉ (toString i).toList := by
  intro h
  rcases isDigit_or_eq_of_mem_toString h with h | h
  · rw [hdigit] at h
    exact absurd h Bool.false_ne_true
  · exact hminus h

/-! ## Locations -/

variable {S : Type} {c d : Clone} {g h : CloneGroup S}

theorem toList_location (c : Clone) : c.location.toList
    = c.file.toList ++ ':' :: ((toString c.startLine).toList
      ++ '-' :: (toString c.endLine).toList) := by
  rw [Clone.location]
  simp

/-- What a location says of its lines has neither a colon nor a bar. -/
theorem notMem_lines {x : Char} (hdigit : x.isDigit = false) (hminus : x ≠ '-') (c : Clone) :
    x ∉ (toString c.startLine).toList ++ '-' :: (toString c.endLine).toList := by
  intro hx
  rcases List.mem_append.mp hx with hx | hx
  · exact notMem_toString hdigit hminus hx
  · rcases List.mem_cons.mp hx with hx | hx
    · exact hminus hx
    · exact notMem_toString hdigit hminus hx

/-- **The last colon of a location ends the name of its file.** -/
theorem file_eq_of_location_eq (h : c.location = d.location) : c.file = d.file := by
  have hlist := congrArg String.toList h
  rw [toList_location, toList_location] at hlist
  exact String.toList_inj.mp (append_cons_inj_right hlist (notMem_lines rfl (by decide) c)
    (notMem_lines rfl (by decide) d)).1

/-- **Plain names** — no bar in the name comes right after what reads as a location. -/
def Clone.Plain (c : Clone) : Prop :=
  ∀ (d : Clone) (rest : String), c.file ≠ d.location ++ "|" ++ rest

theorem Clone.plain_of_notMem {x : Char} (hx : x ∉ c.file.toList)
    (h : ∀ d : Clone, x ∈ d.location.toList ++ ['|']) : c.Plain := by
  intro d rest heq
  refine hx ?_
  rw [heq, String.toList_append, String.toList_append]
  exact List.mem_append_left _ (h d)

theorem Clone.plain_of_bar_notMem (h : '|' ∉ c.file.toList) : c.Plain :=
  plain_of_notMem h fun _ => List.mem_append_right _ (List.mem_singleton_self _)

theorem Clone.plain_of_colon_notMem (h : ':' ∉ c.file.toList) : c.Plain :=
  plain_of_notMem h fun d => by
    rw [toList_location]
    simp

/-- **No location of a plain name begins with another location and a bar.** -/
theorem Clone.Plain.not_prefix_location (h : c.Plain) (d : Clone) :
    ¬ d.location.toList ++ ['|'] <+: c.location.toList := by
  intro hbegins
  rw [toList_location c] at hbegins
  have hlines : '|' ∉ ':' ::
      ((toString c.startLine).toList ++ '-' :: (toString c.endLine).toList) :=
    List.not_mem_cons_of_ne_of_not_mem (by decide) (notMem_lines rfl (by decide) c)
  obtain ⟨rest, hrest⟩ := concat_prefix_of_notMem hbegins hlines
  refine h d (String.ofList rest) (String.toList_inj.mp ?_)
  rw [← hrest]
  simp

/-- The locations of a group in byte order, as letters. -/
def CloneGroup.parts (group : CloneGroup S) : List (List Char) :=
  ((group.clones.map Clone.location).mergeSort Text.le).map String.toList

theorem toList_key (group : CloneGroup S) : group.key.toList = ['|'].intercalate group.parts :=
  String.toList_intercalate

theorem exists_of_mem_parts {l : List Char} (hl : l ∈ g.parts) :
    ∃ c ∈ g.clones, c.location.toList = l := by
  obtain ⟨location, hlocation, rfl⟩ := List.mem_map.mp hl
  obtain ⟨c, hc, rfl⟩ := List.mem_map.mp (List.mem_mergeSort.mp hlocation)
  exact ⟨c, hc, rfl⟩

theorem parts_eq_nil_iff : g.parts = [] ↔ g.clones = [] := by
  rw [← List.length_eq_zero_iff, CloneGroup.parts, List.length_map, List.length_mergeSort,
    List.length_map, List.length_eq_zero_iff]

theorem perm_of_parts_eq (hparts : g.parts = h.parts) :
    (g.clones.map Clone.location).Perm (h.clones.map Clone.location) := by
  have hlocations := (List.map_inj_right fun _ _ => String.toList_inj.mp).mp hparts
  exact ((List.mergeSort_perm _ _).symm.trans (List.Perm.of_eq hlocations)).trans
    (List.mergeSort_perm _ _)

/-- Only the group without clones has the empty key. -/
theorem key_eq_empty_iff : g.key = "" ↔ g.clones = [] := by
  rw [← String.toList_inj, toList_key, ← parts_eq_nil_iff]
  constructor
  · intro hnil
    match hparts : g.parts with
    | [] => rfl
    | [l] =>
      obtain ⟨c, -, rfl⟩ := exists_of_mem_parts (hparts ▸ List.mem_singleton_self l)
      rw [hparts, List.intercalate_singleton, toList_location] at hnil
      exact absurd (List.append_eq_nil_iff.mp hnil).2 (List.cons_ne_nil _ _)
    | l :: l' :: ls =>
      rw [hparts, List.intercalate_cons_cons] at hnil
      simp at hnil
  · intro hnil
    rw [hnil]
    rfl

/-- **The key of plain names gives the locations of its group.** -/
theorem perm_locations_of_plain (hkey : g.key = h.key) (hg : ∀ c ∈ g.clones, c.Plain)
    (hh : ∀ c ∈ h.clones, c.Plain) (hne : g.clones ≠ []) (hne' : h.clones ≠ []) :
    (g.clones.map Clone.location).Perm (h.clones.map Clone.location) := by
  have hplain : ∀ {g h : CloneGroup S}, (∀ c ∈ g.clones, c.Plain) →
      ∀ l ∈ g.parts, ∀ l' ∈ h.parts, ¬ l' ++ ['|'] <+: l := by
    intro g h hg l hl l' hl'
    obtain ⟨c, hc, rfl⟩ := exists_of_mem_parts hl
    obtain ⟨d, -, rfl⟩ := exists_of_mem_parts hl'
    exact (hg c hc).not_prefix_location d
  have hlist := congrArg String.toList hkey
  rw [toList_key, toList_key] at hlist
  exact perm_of_parts_eq (intercalate_inj hlist (hplain hg) (hplain hh)
    (mt parts_eq_nil_iff.mp hne) (mt parts_eq_nil_iff.mp hne'))

/-- **Without bars in the names of files a key gives the locations of its group.** -/
theorem perm_locations_of_key_eq (hkey : g.key = h.key)
    (hg : ∀ c ∈ g.clones, '|' ∉ c.file.toList) (hh : ∀ c ∈ h.clones, '|' ∉ c.file.toList)
    (hne : g.clones ≠ []) (hne' : h.clones ≠ []) :
    (g.clones.map Clone.location).Perm (h.clones.map Clone.location) :=
  perm_locations_of_plain hkey (fun c hc => Clone.plain_of_bar_notMem (hg c hc))
    (fun c hc => Clone.plain_of_bar_notMem (hh c hc)) hne hne'

/-! ## Groups with the same locations -/

/-- The byte order is the order of the bytes as numbers. -/
theorem Text.le_iff {a b : String} :
    Text.le a b = true ↔ (Text.bytes a).map UInt8.toNat ≤ (Text.bytes b).map UInt8.toNat := by
  have hless : Order.lexLess (fun x y : Nat => decide (x < y)) ((Text.bytes b).map UInt8.toNat)
      ((Text.bytes a).map UInt8.toNat) = true
        ↔ (Text.bytes b).map UInt8.toNat < (Text.bytes a).map UInt8.toNat :=
    Order.lexLess_eq_true_iff (fun _ _ => decide_eq_true_iff) _ _
  rw [Order.lexLess_map] at hless
  rw [Text.le, Bool.not_eq_true', ← Bool.not_eq_true, ← not_lt, ← hless]
  rfl

theorem Text.le_antisymm {a b : String} (hab : Text.le a b = true) (hba : Text.le b a = true) :
    a = b := by
  have hbytes := (Text.le_iff.mp hab).antisymm (Text.le_iff.mp hba)
  exact Text.bytes_injective ((List.map_inj_right fun _ _ => UInt8.toNat_inj.mp).mp hbytes)

/-- **Groups of the same locations have the same key.** -/
theorem key_eq_of_perm_locations
    (hperm : (g.clones.map Clone.location).Perm (h.clones.map Clone.location)) : g.key = h.key := by
  have hsorted : ∀ locations : List String,
      (locations.mergeSort Text.le).Pairwise fun a b => Text.le a b = true :=
    fun locations => (Order.pairwise_mergeSort_key (fun a => (Text.bytes a).map UInt8.toNat)
      (fun _ _ => Text.le_iff) locations).imp Text.le_iff.mpr
  have hlocations := (List.mergeSort_perm (g.clones.map Clone.location) Text.le).trans
    (hperm.trans (List.mergeSort_perm _ Text.le).symm)
  rw [CloneGroup.key, CloneGroup.key, hlocations.eq_of_pairwise
    (fun _ _ _ _ => Text.le_antisymm) (hsorted _) (hsorted _)]

/-- **Groups of the same clones have the same key**, whatever the order of the clones. -/
theorem key_eq_of_perm (hperm : g.clones.Perm h.clones) : g.key = h.key :=
  key_eq_of_perm_locations (hperm.map Clone.location)

/-- **Groups of the same clones in another order** have the same keys in another order. -/
theorem perm_keys {groups groups' : List (CloneGroup S)}
    (h : (groups.map fun group => (group.clones : Multiset Clone)).Perm
      (groups'.map fun group => (group.clones : Multiset Clone))) :
    (groups.map CloneGroup.key).Perm (groups'.map CloneGroup.key) := by
  have hfactors : Function.FactorsThrough CloneGroup.key
      fun group : CloneGroup S => (group.clones : Multiset Clone) := fun _ _ heq =>
    key_eq_of_perm (Multiset.coe_eq_coe.mp heq)
  obtain ⟨keyOf, hkeyOf⟩ := (Function.factorsThrough_iff CloneGroup.key).mp hfactors
  rw [hkeyOf, ← List.map_map, ← List.map_map]
  exact h.map keyOf

end CodeClones
