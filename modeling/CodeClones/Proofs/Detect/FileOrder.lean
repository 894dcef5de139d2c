import CodeClones.Proofs.Detect.Thinned
import CodeClones.Proofs.Detect.Ties

/-!
# Proofs/Detect/FileOrder — the order of the files

The groups of one run have the same key in every order of the files, so what matters is which runs
are kept (`exists_kept_of_mem`).  A run that is not contested is kept in any order
(`mem_keys_or_contested`).  Contested runs can get lost (`not_forall_mem_keys_iff`): of runs that
overlap, those that come first can take so much of another one that it is dropped.  Orders that
agree on ties report the same keys (`mem_keys_iff`), and they do agree if they show the keys of the
tokens in the same order (`tiesAgree_of_eraseDups`).
-/

namespace CodeClones.Detect

open Log Repeat TokenStream

variable {files files' : List LexemeFile} {least : Nat} {kind : CloneKind}

/-! ## Keys in another order -/

/-- **A group is of a run** if each of its clones is that of a place where the run stands. -/
def IsOfRun (files : List LexemeFile) (run : List String) (group : CloneGroup Float) : Prop :=
  ∀ clone ∈ group.clones, ∃ file ∈ files, ∃ offset, file.StandsAt run offset
    ∧ file.cloneOf? run.length offset = some clone

section Orders

variable (hmem : ∀ file, file ∈ files ↔ file ∈ files') (hnodup : files.Nodup)
  (hnodup' : files'.Nodup)

include hmem hnodup hnodup'

/-- **A group is of a run that is kept**, and its key is reported in every order of the files in
which the run is kept. -/
theorem exists_kept_of_mem {group : CloneGroup Float}
    (hgroup : group ∈ (repeatedIn least kind files).value) :
    0 < least ∧ ∃ run, Kept files least run ∧ IsOfRun files run group
      ∧ (Kept files' least run →
        group.key ∈ (repeatedIn least kind files').value.map CloneGroup.key) := by
  obtain ⟨hleast, region, hselected, hgroup⟩ := exists_region_of_mem hgroup
  have hregion := RepeatTable.isRegion_of_mem hleast
    (RepeatTable.mem_regions_of_mem_selected hselected)
  obtain ⟨run, hcarries, -⟩ := exists_repeatedRun hleast hregion hnodup
  refine ⟨hleast, run, ⟨region, hselected, hcarries⟩, fun clone hclone =>
    exists_stands_of_mem_clones hleast hregion hcarries hgroup hclone, ?_⟩
  rintro ⟨region', hselected', hcarries'⟩
  have hregion' := RepeatTable.isRegion_of_mem hleast
    (RepeatTable.mem_regions_of_mem_selected hselected')
  obtain ⟨group', hgroup', hkey⟩ := exists_group?_of_carries hleast hmem hnodup hnodup' hregion
    hcarries hregion' hcarries' hgroup
  obtain ⟨p, hp, -⟩ := hregion'.exists_ne 0
  obtain ⟨f, file, o, hf, -, rfl⟩ := exists_window_of_mem hleast hregion' hp
  have hsize := hregion'.add_length_le hp
  have hlong := hregion'.least_le
  obtain ⟨reported, hreported, hkey'⟩ := exists_key_of_mem_selected hleast
    (List.ne_nil_of_mem (List.mem_of_getElem? hf)) (by rw [size]; omega) hselected' hgroup'
  exact List.mem_map.mpr ⟨reported, hreported, hkey'.trans hkey⟩

/-- **What one order reports, the other one does too** unless it is of a contested run. -/
theorem mem_keys_or_contested {group : CloneGroup Float}
    (hgroup : group ∈ (repeatedIn least kind files).value) :
    group.key ∈ (repeatedIn least kind files').value.map CloneGroup.key
      ∨ ∃ run, RepeatedRun files least run ∧ Contested files least run
        ∧ IsOfRun files run group := by
  obtain ⟨hleast, run, hkept, hof, hreported⟩ := exists_kept_of_mem hmem hnodup hnodup' hgroup
  have hrun := hkept.repeatedRun hleast hnodup
  by_cases hcontested : Contested files least run
  · exact Or.inr ⟨run, hrun, hcontested, hof⟩
  · exact Or.inl (hreported (kept_of_not_contested hleast hnodup' ((repeatedRun_congr hmem).mp hrun)
      fun hcontested' => hcontested ((contested_congr hmem).mpr hcontested')))

/-- **Two orders of the files that agree on ties report the same keys.** -/
theorem mem_keys_iff (hties : TiesAgree files files' least) (key : String) :
    key ∈ (repeatedIn least kind files).value.map CloneGroup.key
      ↔ key ∈ (repeatedIn least kind files').value.map CloneGroup.key := by
  have hkept : 0 < least → ∀ run, Kept files least run ↔ Kept files' least run :=
    fun hleast => kept_congr hleast hmem hnodup hnodup' hties
  constructor
  · intro hkey
    obtain ⟨group, hgroup, rfl⟩ := List.mem_map.mp hkey
    obtain ⟨hleast, run, hrun, -, hreported⟩ := exists_kept_of_mem hmem hnodup hnodup' hgroup
    exact hreported ((hkept hleast run).mp hrun)
  · intro hkey
    obtain ⟨group, hgroup, rfl⟩ := List.mem_map.mp hkey
    obtain ⟨hleast, run, hrun, -, hreported⟩ :=
      exists_kept_of_mem (fun file => (hmem file).symm) hnodup' hnodup hgroup
    exact hreported ((hkept hleast run).mpr hrun)

end Orders

/-- **Orders that show the keys in the same order agree on ties.** -/
theorem tiesAgree_of_eraseDups
    (h : (files.flatMap fun file => file.lexemes.map Lexeme.key).eraseDups
      = (files'.flatMap fun file => file.lexemes.map Lexeme.key).eraseDups) :
    TiesAgree files files' least := by
  have hnumbers : ∀ run, numbers files run = numbers files' run := fun run =>
    List.map_congr_left fun key _ => Vocabulary.number_congr h key
  intro run other _ _ _ _ _ _
  rw [hnumbers, hnumbers]

/-! ## Exact clones -/

/-- **Files of distinct names** — as sequences of lexemes they are distinct. -/
theorem nodup_lexemes {files : List SourceFile} (h : (files.map SourceFile.name).Nodup) :
    (files.map SourceFile.lexemes).Nodup := by
  refine List.Nodup.of_map LexemeFile.name ?_
  rw [List.map_map]
  exact h

/-- **The order of the files** — what one order reports under a key, every other order does too
unless it is of a contested run; and orders that agree on ties report the same keys. -/
theorem reported_in_any_order (minimumTokens : Nat) {files files' : List SourceFile}
    (hperm : files.Perm files') (hnames : (files.map SourceFile.name).Nodup) :
    (∀ group ∈ (repeatedExact minimumTokens files).value,
        group.key ∈ (repeatedExact minimumTokens files').value.map CloneGroup.key
        ∨ ∃ run, RepeatedRun (files.map SourceFile.lexemes) minimumTokens run
          ∧ Contested (files.map SourceFile.lexemes) minimumTokens run
          ∧ IsOfRun (files.map SourceFile.lexemes) run group)
      ∧ (TiesAgree (files.map SourceFile.lexemes) (files'.map SourceFile.lexemes) minimumTokens →
        ∀ key, key ∈ (repeatedExact minimumTokens files).value.map CloneGroup.key
          ↔ key ∈ (repeatedExact minimumTokens files').value.map CloneGroup.key) := by
  have hmem : ∀ file, file ∈ files.map SourceFile.lexemes ↔ file ∈ files'.map SourceFile.lexemes :=
    fun _ => (hperm.map SourceFile.lexemes).mem_iff
  have hnodup := nodup_lexemes hnames
  have hnodup' := nodup_lexemes ((hperm.map SourceFile.name).nodup_iff.mp hnames)
  exact ⟨fun _ => mem_keys_or_contested hmem hnodup hnodup', mem_keys_iff hmem hnodup hnodup'⟩

/-- A file that holds the run `b c d` twice, once behind `x` and once behind `w`. -/
def holdsTwice : SourceFile :=
  lineByLine "a.cpp" ["x", "b", "c", "d", "w", "b", "c", "d"]

/-- A file that shares the runs `x b c` and `w b c` with it. -/
def sharesOthers : SourceFile :=
  lineByLine "b.cpp" ["w", "x", "b", "c", "w", "b", "c"]

/-- The two files swapped, behind one that shows all their keys. -/
theorem reported_in_any_order_of_header :
    let header := lineByLine "c.cpp" ["w", "x", "b", "c", "d"]
    [header, holdsTwice, sharesOthers].Perm [header, sharesOthers, holdsTwice]
      ∧ ([header, holdsTwice, sharesOthers].map SourceFile.name).Nodup
      ∧ ∀ key, key ∈ (repeatedExact 3 [header, holdsTwice, sharesOthers]).value.map CloneGroup.key
        ↔ key ∈ (repeatedExact 3 [header, sharesOthers, holdsTwice]).value.map CloneGroup.key := by
  intro header
  have hperm : [header, holdsTwice, sharesOthers].Perm [header, sharesOthers, holdsTwice] :=
    (List.Perm.swap sharesOthers holdsTwice []).cons header
  have hnames : ([header, holdsTwice, sharesOthers].map SourceFile.name).Nodup := by decide
  have hties : TiesAgree ([header, holdsTwice, sharesOthers].map SourceFile.lexemes)
      ([header, sharesOthers, holdsTwice].map SourceFile.lexemes) 3 :=
    tiesAgree_of_eraseDups (by decide +kernel)
  exact ⟨hperm, hnames, (reported_in_any_order 3 hperm hnames).2 hties⟩

/-! ## A group that one order loses -/

/-- With the first file first all three runs are selected. -/
theorem selected_holdsTwice_sharesOthers : (RepeatTable.ofSuffixes (SuffixArray.ofText
      (ofFiles ([holdsTwice, sharesOthers].map SourceFile.lexemes)).codes)).selected (3 : Nat)
    = [⟨[0, 10], 3, 0, 2⟩, ⟨[1, 5], 3, 2, 4⟩, ⟨[4, 13], 3, 13, 15⟩] := by
  have hcodes : (ofFiles ([holdsTwice, sharesOthers].map SourceFile.lexemes)).codes
      = #[1, 2, 3, 4, 5, 2, 3, 4, 6, 5, 1, 2, 3, 5, 2, 3, 7] := by
    rw [codes_eq]
    decide +kernel
  rw [hcodes, RepeatTable.ofSuffixes_eq #[0, 10, 1, 5, 11, 14, 2, 6, 12, 15, 3, 7, 9, 4, 13, 8, 16]
    #[0, 3, 0, 3, 2, 2, 0, 2, 1, 1, 0, 1, 0, 1, 3, 0, 0]
    ⟨by decide +kernel, by decide +kernel⟩ (by decide +kernel)]
  cbv

/-- With the other file first one of them is dropped. -/
theorem selected_sharesOthers_holdsTwice : (RepeatTable.ofSuffixes (SuffixArray.ofText
      (ofFiles ([sharesOthers, holdsTwice].map SourceFile.lexemes)).codes)).selected (3 : Nat)
    = [⟨[4, 12], 3, 1, 3⟩, ⟨[1, 8], 3, 3, 5⟩] := by
  have hcodes : (ofFiles ([sharesOthers, holdsTwice].map SourceFile.lexemes)).codes
      = #[1, 2, 3, 4, 1, 3, 4, 6, 2, 3, 4, 5, 1, 3, 4, 5, 7] := by
    rw [codes_eq]
    decide +kernel
  rw [hcodes, RepeatTable.ofSuffixes_eq #[0, 12, 4, 1, 8, 2, 9, 13, 5, 3, 10, 14, 6, 11, 15, 7, 16]
    #[0, 1, 3, 0, 3, 0, 2, 3, 2, 0, 1, 2, 1, 0, 1, 0, 0]
    ⟨by decide +kernel, by decide +kernel⟩ (by decide +kernel)]
  cbv

/-- With the first file first there is a group within that file. -/
theorem exists_group_holdsTwice_sharesOthers :
    ∃ group ∈ (repeatedExact 3 [holdsTwice, sharesOthers]).value, ∃ twin : CloneGroup Float,
      twin.key = group.key ∧ twin.clones ≠ [] ∧ ∀ clone ∈ twin.clones, clone.file = "a.cpp" := by
  have hselected : (⟨[1, 5], 3, 2, 4⟩ : Repeat) ∈ (RepeatTable.ofSuffixes (SuffixArray.ofText
      (ofFiles ([holdsTwice, sharesOthers].map SourceFile.lexemes)).codes)).selected (3 : Nat) := by
    rw [selected_holdsTwice_sharesOthers]
    decide
  have hregion := RepeatTable.isRegion_of_mem (by decide)
    (RepeatTable.mem_regions_of_mem_selected hselected)
  have hlocated : (ofFiles ([holdsTwice, sharesOthers].map SourceFile.lexemes)).located ⟨[1, 5], 3⟩
      = [⟨0, 2, 4, 1, 3⟩, ⟨0, 6, 8, 5, 7⟩] := by decide +kernel
  cases hgroup : (ofFiles ([holdsTwice, sharesOthers].map SourceFile.lexemes)).group? .exact
      (Repeat.occurrences ⟨[1, 5], 3, 2, 4⟩) with
  | none =>
    -- the two windows do not overlap
    obtain ⟨f, file, first, -, -, -, hall⟩ :=
      crowded_of_group?_eq_none (by decide) hregion (by decide) hgroup
    obtain ⟨-, hfirst, -⟩ := hall 0 1 holdsTwice.lexemes rfl (by decide) (by decide)
    obtain ⟨-, -, hoverlap⟩ := hall 0 5 holdsTwice.lexemes rfl (by decide) (by decide)
    rw [overlap] at hoverlap
    dsimp only at hoverlap
    omega
  | some twin =>
    obtain ⟨group, hmem, hkey⟩ := exists_key_of_mem_selected (by decide) (by decide)
      (by decide +kernel) hselected hgroup
    obtain ⟨htwo, hclones, -⟩ := group?_eq_some hgroup
    refine ⟨group, hmem, twin, hkey.symm, ?_, fun clone hclone => ?_⟩
    · rw [hclones, Ne, List.map_eq_nil_iff]
      exact List.ne_nil_of_length_pos (Nat.zero_lt_of_lt htwo)
    · rw [hclones] at hclone
      obtain ⟨x, hx, rfl⟩ := List.mem_map.mp hclone
      have hx := Location.mem_of_mem_thin hx
      rw [Repeat.occurrences] at hx
      have hx := hlocated ▸ hx
      rcases List.mem_pair.mp hx with rfl | rfl
      · rfl
      · rfl

/-- With the other file first every group has a clone in that file. -/
theorem exists_clone_sharesOthers_holdsTwice {group : CloneGroup Float}
    (h : group ∈ (repeatedExact 3 [sharesOthers, holdsTwice]).value) :
    ∃ clone ∈ group.clones, clone.file = "b.cpp" := by
  obtain ⟨hleast, region, hselected, hgroup⟩ := exists_region_of_mem h
  have hregion := RepeatTable.isRegion_of_mem hleast
    (RepeatTable.mem_regions_of_mem_selected hselected)
  have hfirst : ([sharesOthers, holdsTwice].map SourceFile.lexemes)[0]?
      = some sharesOthers.lexemes := rfl
  have hmem : region ∈ [(⟨[4, 12], 3, 1, 3⟩ : Repeat), ⟨[1, 8], 3, 3, 5⟩] :=
    selected_sharesOthers_holdsTwice ▸ hselected
  rcases List.mem_pair.mp hmem with rfl | rfl
  · exact exists_clone_of_group? hleast hregion (by decide) hgroup (o := 4) hfirst (by decide)
      (by decide)
  · exact exists_clone_of_group? hleast hregion (by decide) hgroup (o := 1) hfirst (by decide)
      (by decide)

/-- **The order of the files matters** where runs of one length compete for the same tokens. -/
theorem not_forall_mem_keys_iff :
    ¬ ∀ (minimumTokens : Nat) (files files' : List SourceFile), 0 < minimumTokens →
      files.Perm files' → (files.map SourceFile.name).Nodup → ∀ key : String,
        key ∈ (repeatedExact minimumTokens files).value.map CloneGroup.key
          ↔ key ∈ (repeatedExact minimumTokens files').value.map CloneGroup.key := by
  intro hsame
  obtain ⟨group, hgroup, twin, hkey, hclones, hfiles⟩ := exists_group_holdsTwice_sharesOthers
  obtain ⟨group', hgroup', hkey'⟩ := List.mem_map.mp ((hsame 3 [holdsTwice, sharesOthers]
    [sharesOthers, holdsTwice] (by decide) (List.Perm.swap _ _ _) (by decide) group.key).mp
    (List.mem_map_of_mem hgroup))
  obtain ⟨clone, hclone, hfile⟩ := exists_clone_sharesOthers_holdsTwice hgroup'
  obtain ⟨_, _, hrepeats⟩ := exists_repeats_of_mem hgroup'
  have hperm := perm_locations_of_key_eq (hkey'.trans hkey.symm)
    (fun c hc => by
      obtain ⟨file, hmem, heq⟩ := exists_file_of_mem_clones hrepeats hc
      have hbar : ∀ file ∈ [sharesOthers, holdsTwice].map SourceFile.lexemes,
          '|' ∉ file.name.toList := by decide
      exact heq ▸ hbar file hmem)
    (fun c hc => by rw [hfiles c hc]; decide) (List.ne_nil_of_mem hclone) hclones
  obtain ⟨other, hother, heq⟩ := List.mem_map.mp (hperm.mem_iff.mp (List.mem_map_of_mem hclone))
  have hname := file_eq_of_location_eq heq
  rw [hfiles other hother, hfile] at hname
  exact absurd hname (by decide)

end CodeClones.Detect
