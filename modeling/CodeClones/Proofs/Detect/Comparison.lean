import CodeClones.Proofs.Detect.Repeated
import CodeClones.Proofs.Detect.WindowCoverage

/-!
# Proofs/Detect/Comparison — what the two searches for exact clones have in common

A group of the search over the stream repeats a run (`exists_run_of_repeats`), and each part of the
run occurs where it lies in the windows.  Windows that overlap by half of their length at most have
parts that do so too (`overlap_le_of_le`), so the search by windows covers every part.
-/

namespace CodeClones.Detect

open Log

variable {files : List LexemeFile} {least length : Nat} {windows : List (Nat × Nat)}

/-- **Shorter windows overlap less** — if two windows overlap by half of their length at most, so do
the parts at one place in both. -/
theorem overlap_le_of_le {start v w : Nat} (hle : least ≤ length)
    (h : overlap length v w * 2 ≤ length) :
    overlap least (v + start) (w + start) ≤ least / 2 := by
  rw [overlap] at h ⊢
  omega

/-- **A group repeats a run** — one that occurs at all of its windows. -/
theorem exists_run_of_repeats {group : CloneGroup Float}
    (h : Repeats files least length windows group) :
    ∃ run, run.length = length ∧ ∀ window ∈ windows, Occurs files run window := by
  have hwithin : ∀ window ∈ windows, ∃ file, files[window.1]? = some file
      ∧ window.2 + length ≤ file.lexemes.length := by
    intro window hwindow
    obtain ⟨i, hi, rfl⟩ := List.getElem_of_mem hwindow
    obtain ⟨file, first, last, hfile, hfits, -⟩ := h.clones.get hi (h.clones.length_eq ▸ hi)
    exact ⟨file, hfile, hfits⟩
  have htwo := h.two_le
  obtain ⟨v, hv⟩ := List.exists_mem_of_length_pos (show 0 < windows.length by omega)
  obtain ⟨file, hfile, hfits⟩ := hwithin v hv
  refine ⟨file.keys v.2 length, file.length_keys hfits, fun w hw => ?_⟩
  obtain ⟨file', hfile', hfits'⟩ := hwithin w hw
  rw [h.same v hv w hw file file' hfile hfile']
  exact occurs_keys_of_le hfile' hfits'

theorem exists_ne_of_repeats {group : CloneGroup Float}
    (h : Repeats files least length windows group) :
    ∃ v ∈ windows, ∃ w ∈ windows, v ≠ w := by
  have htwo := h.two_le
  refine ⟨windows[0], List.getElem_mem _, windows[1], List.getElem_mem _, fun heq => ?_⟩
  exact absurd ((List.Nodup.getElem_inj_iff h.nodup).mp heq) Nat.zero_ne_one

/-- **Every part of the run of a group is covered** by the search for windows of its length. -/
theorem covered_of_repeats {S : Type} [Scoring S] (minimum : S) {files : List SourceFile}
    {group : CloneGroup Float}
    (h : Repeats (files.map SourceFile.lexemes) least length windows group) (hleast : 0 < least)
    {start : Nat} (hfits : start + least ≤ length) :
    ∃ run, run.length = least
      ∧ (∀ window ∈ windows,
        Occurs (files.map SourceFile.lexemes) run (window.1, window.2 + start))
      ∧ Covered (files.map SourceFile.lexemes) (windowedExact least minimum files).value run := by
  obtain ⟨run, rfl, hrun⟩ := exists_run_of_repeats h
  obtain ⟨v, hv, w, hw, hne⟩ := exists_ne_of_repeats h
  have hpart : ∀ window ∈ windows, Occurs (files.map SourceFile.lexemes)
      ((run.drop start).take least) (window.1, window.2 + start) :=
    fun window hwindow => (hrun window hwindow).part hfits
  have hlength : ((run.drop start).take least).length = least := by
    rw [List.length_take, List.length_drop]
    omega
  have hcovered := WindowSearch.covered_of_occurs minimum (forall₂_shows_ofFile files)
    (hlength.symm ▸ hleast) (hpart v hv) (hpart w hw) fun hsource => by
      rw [hlength]
      exact overlap_le_of_le (Nat.le_of_add_left_le hfits) (h.apart v hv w hw hne hsource)
  rw [hlength] at hcovered
  exact ⟨_, hlength, hpart, hcovered⟩

/-- **The search by windows covers what the search over the stream reports** — every run of the
least length within the windows of a group is covered, at whatever place it starts; so it finds
nothing only if the other one does not. -/
theorem windowed_of_repeated {S : Type} [Scoring S] (minimumTokens : Nat) (minimum : S)
    (files : List SourceFile) :
    (∀ group ∈ (repeatedExact minimumTokens files).value,
      (∃ length windows,
        Repeats (files.map SourceFile.lexemes) minimumTokens length windows group)
      ∧ ∀ length windows,
        Repeats (files.map SourceFile.lexemes) minimumTokens length windows group →
        ∀ start, start + minimumTokens ≤ length →
        ∃ run, run.length = minimumTokens
          ∧ (∀ window ∈ windows,
            Occurs (files.map SourceFile.lexemes) run (window.1, window.2 + start))
          ∧ Covered (files.map SourceFile.lexemes)
            (windowedExact minimumTokens minimum files).value run)
    ∧ ((repeatedExact minimumTokens files).value ≠ [] →
      (windowedExact minimumTokens minimum files).value ≠ []) := by
  refine ⟨fun group hgroup => ⟨exists_repeats_of_mem hgroup, ?_⟩, fun hsome => ?_⟩
  · intro length windows hrepeats start hfits
    exact covered_of_repeats minimum hrepeats (exists_region_of_mem hgroup).1 hfits
  · obtain ⟨group, hgroup⟩ := List.exists_mem_of_ne_nil _ hsome
    obtain ⟨length, windows, hrepeats⟩ := exists_repeats_of_mem hgroup
    obtain ⟨_, -, -, found, hfound, -⟩ := covered_of_repeats minimum hrepeats
      (exists_region_of_mem hgroup).1 ((Nat.zero_add _).trans_le hrepeats.least_le)
    exact List.ne_nil_of_mem hfound

end CodeClones.Detect
