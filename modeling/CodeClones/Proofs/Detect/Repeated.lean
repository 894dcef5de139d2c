import CodeClones.Detect.Repeated
import CodeClones.Proofs.Clone.Assembly
import CodeClones.Proofs.Clone.Group
import CodeClones.Proofs.Repeat.Selection

/-!
# Proofs/Detect/Repeated — what the detection over the stream reports

Every group reported is that of a region of the stream (`exists_region_of_mem`), so it repeats a
window (`exists_repeats_of_mem`).  No group is lost but to one of the same key
(`exists_key_of_mem_selected`).
-/

namespace CodeClones.Detect

open Log Repeat TokenStream

variable {files : List LexemeFile} {least : Nat} {kind : CloneKind} {group : CloneGroup Float}

/-- The groups before those with a known key are dropped. -/
theorem value_repeatedInStream (least : Nat) (kind : CloneKind) (stream : TokenStream) :
    (repeatedInStream least kind stream).value
      = if stream.size < least then []
        else stream.assemble kind
          (((RepeatTable.ofSuffixes (SuffixArray.ofText stream.codes)).selected
            (Int.ofNat least)).map Repeat.occurrences) := by
  rw [repeatedInStream]
  split
  · rfl
  · rfl

/-- **Every group is that of a selected region.** -/
theorem exists_region_of_mem (h : group ∈ (repeatedIn least kind files).value) :
    0 < least ∧ ∃ region ∈ (RepeatTable.ofSuffixes
        (SuffixArray.ofText (ofFiles files).codes)).selected (Int.ofNat least),
      (ofFiles files).group? kind region.occurrences = some group := by
  rw [repeatedIn] at h
  split at h
  · exact absurd h List.not_mem_nil
  · next hproper =>
    rw [value_repeatedInStream] at h
    split at h
    · exact absurd h List.not_mem_nil
    · obtain ⟨found, hfound, hgroup⟩ := List.mem_filterMap.mp
        ((distinctGroups_sublist _).subset h)
      obtain ⟨region, hregion, rfl⟩ := List.mem_map.mp hfound
      refine ⟨Nat.pos_of_ne_zero fun hzero => hproper ?_, region, hregion, hgroup⟩
      rw [Bool.or_eq_true, decide_eq_true_iff]
      exact Or.inr hzero

/-- **The key of the group of a selected region is reported**, if the stream is long enough. -/
theorem exists_key_of_mem_selected (hleast : 0 < least) (hfiles : files ≠ [])
    (hsize : least ≤ (ofFiles files).size) {region : Repeat}
    (hregion : region ∈ (RepeatTable.ofSuffixes
      (SuffixArray.ofText (ofFiles files).codes)).selected (Int.ofNat least))
    (hgroup : (ofFiles files).group? kind region.occurrences = some group) :
    ∃ kept ∈ (repeatedIn least kind files).value, kept.key = group.key := by
  have hproper : ¬ (files.isEmpty || decide (least = 0)) = true := by
    rw [Bool.or_eq_true, List.isEmpty_iff, decide_eq_true_iff, not_or]
    exact ⟨hfiles, Nat.ne_of_gt hleast⟩
  rw [repeatedIn, if_neg hproper, value_repeatedInStream, if_neg (Nat.not_lt.mpr hsize)]
  exact exists_key_distinctGroups
    (List.mem_filterMap.mpr ⟨_, List.mem_map_of_mem hregion, hgroup⟩)

/-- **Every group repeats a window.** -/
theorem exists_repeats_of_mem (h : group ∈ (repeatedIn least kind files).value) :
    ∃ length windows, Repeats files least length windows group := by
  obtain ⟨hleast, region, hregion, hgroup⟩ := exists_region_of_mem h
  obtain ⟨windows, hrepeats⟩ := exists_repeats_of_group? hleast
    (RepeatTable.isRegion_of_mem hleast (RepeatTable.mem_regions_of_mem_selected hregion)) hgroup
  exact ⟨region.length, windows, hrepeats⟩

theorem pairwise_key_repeatedIn (least : Nat) (kind : CloneKind) (files : List LexemeFile) :
    (repeatedIn least kind files).value.Pairwise fun a b => a.key ≠ b.key := by
  rw [repeatedIn]
  split
  · exact List.Pairwise.nil
  · rw [value_repeatedInStream]
    split
    · exact List.Pairwise.nil
    · exact pairwise_key_distinctGroups _

/-- **Soundness of the detection over the stream** — every group of exact clones repeats a window of
token texts, every group of near clones one of normalized texts, and no key is reported twice. -/
theorem repeated_sound (minimumTokens : Nat) (files : List SourceFile)
    (normalized : List NormalizedFile) :
    ((∀ group ∈ (repeatedExact minimumTokens files).value, ∃ length windows,
          Repeats (files.map SourceFile.lexemes) minimumTokens length windows group)
        ∧ (repeatedExact minimumTokens files).value.Pairwise fun a b => a.key ≠ b.key)
      ∧ (∀ group ∈ (repeatedNormalized minimumTokens normalized).value, ∃ length windows,
          Repeats (normalized.map NormalizedFile.lexemes) minimumTokens length windows group)
        ∧ (repeatedNormalized minimumTokens normalized).value.Pairwise
          fun a b => a.key ≠ b.key :=
  ⟨⟨fun _ => exists_repeats_of_mem, pairwise_key_repeatedIn _ _ _⟩,
    fun _ => exists_repeats_of_mem, pairwise_key_repeatedIn _ _ _⟩

end CodeClones.Detect
