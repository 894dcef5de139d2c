import CodeClones.Proofs.Clone.Group
import CodeClones.Proofs.Clone.Key

/-!
# Proofs/Clone/Span — the key of a group and the spans it shows

The span of a clone is its file with the first and the last line.  A location says its span and
nothing else (`location_inj`), and groups of the same spans have the same key.  The converse holds
for plain names, where groups can be dropped by their spans (`keys_tell_plain_groups_apart`); a bar
after what reads as a location makes two groups of different spans look alike
(`one_key_for_different_spans`).
-/

namespace CodeClones

variable {S : Type}

/-! ## A location says its span -/

section Decimal

variable {i j : Int} {m n : Nat} {as bs : List Char}

theorem minus_notMem_repr (n : Nat) : '-' ∉ n.repr.toList :=
  fun h => absurd (isDigit_of_mem_repr h) (by decide)

theorem repr_append_ne_minus (n : Nat) : n.repr.toList ++ as ≠ '-' :: bs := by
  intro heq
  match hdigits : n.repr.toList with
  | [] => exact Nat.repr_ne_empty (String.toList_eq_nil_iff.mp hdigits)
  | c :: cs =>
    rw [hdigits] at heq
    obtain ⟨rfl, -⟩ := List.cons.inj heq
    exact minus_notMem_repr n (hdigits ▸ List.mem_cons_self)

theorem repr_append_inj (h : m.repr.toList ++ '-' :: as = n.repr.toList ++ '-' :: bs) :
    m = n ∧ as = bs := by
  obtain ⟨heq, hrest⟩ := append_cons_inj h (minus_notMem_repr m) (minus_notMem_repr n)
  exact ⟨Nat.repr_inj.mp (String.toList_inj.mp heq), hrest⟩

/-- **A number ends at the first minus after its digits**, whether it has a sign or not. -/
theorem toString_append_inj
    (h : (toString i).toList ++ '-' :: as = (toString j).toList ++ '-' :: bs) :
    i = j ∧ as = bs := by
  have hsign : ∀ n : Nat, (toString (Int.negSucc n)).toList = '-' :: n.succ.repr.toList :=
    fun n => String.toList_append
  match i, j with
  | .ofNat m, .ofNat n =>
    obtain ⟨rfl, hrest⟩ := repr_append_inj h
    exact ⟨rfl, hrest⟩
  | .ofNat m, .negSucc n =>
    rw [hsign] at h
    exact absurd h (repr_append_ne_minus m)
  | .negSucc m, .ofNat n =>
    rw [hsign] at h
    exact absurd h.symm (repr_append_ne_minus n)
  | .negSucc m, .negSucc n =>
    rw [hsign, hsign] at h
    obtain ⟨heq, hrest⟩ := repr_append_inj (List.cons.inj h).2
    exact ⟨congrArg Int.negSucc (Nat.succ.inj heq), hrest⟩

end Decimal

/-- The file of a clone, with its first and its last line. -/
def Clone.span (c : Clone) : String × Int × Int :=
  (c.file, c.startLine, c.endLine)

/-- **The spans of a group**, in no order, each as often as the group shows it. -/
def CloneGroup.spans (group : CloneGroup S) : Multiset (String × Int × Int) :=
  (group.clones.map Clone.span : List (String × Int × Int))

/-- **A location says the span of its clone** and nothing else. -/
theorem location_inj {c d : Clone} : c.location = d.location ↔ c.span = d.span := by
  constructor
  · intro h
    have hfile := file_eq_of_location_eq h
    have hlist := congrArg String.toList h
    rw [toList_location, toList_location, hfile, List.append_right_inj, List.cons_inj_right]
      at hlist
    obtain ⟨hstart, hend⟩ := toString_append_inj hlist
    rw [String.toList_inj, Int.toString_eq_repr, Int.toString_eq_repr, Int.repr_inj] at hend
    rw [Clone.span, Clone.span, hfile, hstart, hend]
  · intro h
    obtain ⟨hfile, hlines⟩ := Prod.ext_iff.mp h
    obtain ⟨hstart, hend⟩ := Prod.ext_iff.mp hlines
    change c.file = d.file at hfile
    change c.startLine = d.startLine at hstart
    change c.endLine = d.endLine at hend
    rw [Clone.location, Clone.location, hfile, hstart, hend]

/-- A clone of some span. -/
def Clone.ofSpan (span : String × Int × Int) : Clone where
  file := span.1
  startLine := span.2.1
  endLine := span.2.2
  tokenCount := 0

/-! ## Keys and spans -/

variable {g h : CloneGroup S}

theorem spans_eq_iff :
    g.spans = h.spans ↔ (g.clones.map Clone.location).Perm (h.clones.map Clone.location) := by
  have hinj : Function.Injective (Clone.location ∘ Clone.ofSpan) := fun _ _ heq =>
    location_inj.mp heq
  have hlocations : ∀ clones : List Clone, clones.map Clone.location
      = (clones.map Clone.span).map (Clone.location ∘ Clone.ofSpan) := fun clones => by
    rw [List.map_map]
    rfl
  rw [hlocations, hlocations, List.map_perm_map_iff hinj, CloneGroup.spans, CloneGroup.spans,
    Multiset.coe_eq_coe]

/-- **The key of plain names says the spans of its group.** -/
theorem key_eq_iff_spans_eq (hg : ∀ c ∈ g.clones, c.Plain) (hh : ∀ c ∈ h.clones, c.Plain) :
    g.key = h.key ↔ g.spans = h.spans := by
  refine ⟨fun hkey => ?_, fun hspans => key_eq_of_perm_locations (spans_eq_iff.mp hspans)⟩
  by_cases hnone : g.clones = []
  · have hnone' : h.clones = [] := key_eq_empty_iff.mp (hkey ▸ key_eq_empty_iff.mpr hnone)
    rw [CloneGroup.spans, CloneGroup.spans, hnone, hnone']
  · have hsome : h.clones ≠ [] := fun hnone' =>
      hnone (key_eq_empty_iff.mp (hkey.trans (key_eq_empty_iff.mpr hnone')))
    exact spans_eq_iff.mpr (perm_locations_of_plain hkey hg hh hnone hsome)

/-- **Keys and spans** — groups of the same spans have the same key, and the groups kept are the
first ones of their keys.  For plain names the key says the spans, so the groups kept are the first
ones of their spans: one is dropped only if an earlier one shows the same. -/
theorem keys_tell_plain_groups_apart (groups : List (CloneGroup S)) :
    (∀ g h : CloneGroup S, g.spans = h.spans → g.key = h.key)
      ∧ distinctGroups groups = firstOfEach CloneGroup.key groups
      ∧ (∀ g h : CloneGroup S, (∀ c ∈ g.clones, c.Plain) → (∀ c ∈ h.clones, c.Plain) →
        (g.key = h.key ↔ g.spans = h.spans))
      ∧ ((∀ g ∈ groups, ∀ c ∈ g.clones, c.Plain) →
        distinctGroups groups = firstOfEach CloneGroup.spans groups) := by
  refine ⟨fun g h hspans => key_eq_of_perm_locations (spans_eq_iff.mp hspans),
    distinctGroups_eq_firstOfEach groups, fun g h => key_eq_iff_spans_eq, fun hplain => ?_⟩
  rw [distinctGroups_eq_firstOfEach]
  exact firstOfEach_congr fun g hg h hh => key_eq_iff_spans_eq (hplain g hg) (hplain h hh)

/-- A group of clones with some spans. -/
def CloneGroup.ofSpans (spans : List (String × Int × Int)) : CloneGroup Float where
  kind := .exact
  clones := spans.map Clone.ofSpan
  similarity := 1
  fingerprint := ""

/-- Three groups with a bar in one name and a colon in another: the second shows the spans of the
first in another order, and is dropped. -/
theorem keys_tell_apart_names_with_bar :
    let first := CloneGroup.ofSpans [("a|b", 1, 5), ("c:d", 1, 5)]
    let second := CloneGroup.ofSpans [("c:d", 1, 5), ("a|b", 1, 5)]
    let third := CloneGroup.ofSpans [("a|b", 1, 4), ("c:d", 1, 5)]
    (∀ g ∈ [first, second, third], ∀ c ∈ g.clones, c.Plain)
      ∧ distinctGroups [first, second, third] = [first, third] := by
  intro first second third
  have hplain : ∀ g ∈ [first, second, third], ∀ c ∈ g.clones, c.Plain := by
    intro g hg c hc
    have hnames : ∀ g ∈ [first, second, third], ∀ c ∈ g.clones,
        c.file = "a|b" ∨ c.file = "c:d" := by decide +kernel
    rcases hnames g hg c hc with hname | hname
    · exact Clone.plain_of_colon_notMem (by rw [hname]; decide)
    · exact Clone.plain_of_bar_notMem (by rw [hname]; decide)
  refine ⟨hplain, ?_⟩
  rw [(keys_tell_plain_groups_apart [first, second, third]).2.2.2 hplain]
  decide +kernel

/-- Two groups of two clones each, in different files, with one key: the second one is dropped. -/
theorem one_key_for_different_spans :
    let first := CloneGroup.ofSpans [("a", 1, 2), ("b:3-4|c", 5, 6)]
    let second := CloneGroup.ofSpans [("a:1-2|b", 3, 4), ("c", 5, 6)]
    first.key = second.key ∧ first.spans ≠ second.spans
      ∧ distinctGroups [first, second] = [first] := by
  intro first second
  have hkey : first.key = second.key := by cbv
  refine ⟨hkey, by decide +kernel, ?_⟩
  rw [distinctGroups_eq_firstOfEach, firstOfEach]
  simp [hkey]

end CodeClones
