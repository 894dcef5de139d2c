import CodeClones.Proofs.Clone.Key
import CodeClones.Proofs.Detect.Repeated

/-!
# Proofs/Detect/Coverage — what the detection over the stream cannot miss

A run of keys that occurs in two files lies in a region of the stream.  If the region is selected,
its group has clones in all of its files (`reported_of_group?`).  If not, its occurrences are mostly
covered by selected regions, and a selected region fails to report its files only if it is crowded
into one of them (`crowded_of_group?`).  Periodic texts have such regions, and they can take all
reports of a run with them.
-/

namespace CodeClones.Detect

open Log Repeat TokenStream

/-! ## Runs -/

/-- **A run is crowded into a file** — it occurs more than once, but in no other file, and all its
occurrences overlap the first one by more than half. -/
def Crowded (files : List LexemeFile) (f : Nat) (run : List String) : Prop :=
  ∃ first other, first ≠ other ∧ Occurs files run (f, first) ∧ Occurs files run (f, other)
    ∧ ∀ window, Occurs files run window → window.1 = f ∧ first ≤ window.2
      ∧ run.length < overlap run.length first window.2 * 2

/-- **A window is mostly crowded** — more than half of its offsets lie in occurrences of crowded
runs, none of them shorter than the window. -/
def MostlyCrowded (files : List LexemeFile) (length : Nat) (window : Nat × Nat) : Prop :=
  ∃ offsets : List Nat, offsets.Nodup ∧ length < 2 * offsets.length
    ∧ ∀ t ∈ offsets, t < length ∧ ∃ run start, length ≤ run.length
      ∧ Crowded files window.1 run ∧ Occurs files run (window.1, start)
      ∧ start ≤ window.2 + t ∧ window.2 + t < start + run.length

/-- **A file is reported** — by the group returned for the key of one that repeats a window and has
a clone in the file.  Where no name has a bar the group returned has a clone there itself. -/
def Reported (files : List LexemeFile) (least : Nat) (groups : List (CloneGroup Float))
    (name : String) : Prop :=
  ∃ group ∈ groups, ∃ twin length windows, Repeats files least length windows twin
    ∧ twin.key = group.key ∧ (∃ clone ∈ twin.clones, clone.file = name)
    ∧ ((∀ file ∈ files, '|' ∉ file.name.toList) → ∃ clone ∈ group.clones, clone.file = name)

variable {files : List LexemeFile} {least : Nat} {kind : CloneKind}

/-! ## Names under a key -/

theorem exists_file_of_mem_clones {length : Nat} {windows : List (Nat × Nat)}
    {group : CloneGroup Float} (h : Repeats files least length windows group) {clone : Clone}
    (hclone : clone ∈ group.clones) : ∃ file ∈ files, clone.file = file.name := by
  obtain ⟨i, hi, rfl⟩ := List.getElem_of_mem hclone
  obtain ⟨file, first, last, hfile, -, -, -, heq⟩ := h.clones.get (h.clones.length_eq ▸ hi) hi
  refine ⟨file, List.mem_of_getElem? hfile, ?_⟩
  rw [List.get_eq_getElem] at heq
  rw [heq]

theorem clones_ne_nil {length : Nat} {windows : List (Nat × Nat)} {group : CloneGroup Float}
    (h : Repeats files least length windows group) : group.clones ≠ [] := by
  intro hnil
  have htwo := h.two_le
  rw [h.clones.length_eq, hnil] at htwo
  exact absurd htwo (Nat.not_succ_le_zero 1)

/-- Groups of one key report the same files, unless a name has a bar. -/
theorem exists_clone_of_key_eq {length length' : Nat} {windows windows' : List (Nat × Nat)}
    {group twin : CloneGroup Float} (hgroup : Repeats files least length windows group)
    (htwin : Repeats files least length' windows' twin) (hkey : twin.key = group.key)
    (hbar : ∀ file ∈ files, '|' ∉ file.name.toList) {clone : Clone}
    (hclone : clone ∈ twin.clones) : ∃ other ∈ group.clones, other.file = clone.file := by
  have hnames : ∀ {length : Nat} {windows : List (Nat × Nat)} {group : CloneGroup Float},
      Repeats files least length windows group → ∀ c ∈ group.clones, '|' ∉ c.file.toList := by
    intro length windows group h c hc
    obtain ⟨file, hfile, heq⟩ := exists_file_of_mem_clones h hc
    exact heq ▸ hbar file hfile
  have hperm := perm_locations_of_key_eq hkey (hnames htwin) (hnames hgroup)
    (clones_ne_nil htwin) (clones_ne_nil hgroup)
  obtain ⟨other, hother, heq⟩ := List.mem_map.mp (hperm.mem_iff.mp (List.mem_map_of_mem hclone))
  exact ⟨other, hother, file_eq_of_location_eq heq⟩

/-! ## Regions and their runs -/

section Region

variable {region : Repeat} {file : LexemeFile} {f o : Nat} (hleast : 0 < least)
  (hregion : IsRegion (ofFiles files).codes least region) (hf : files[f]? = some file)
  (hp : startOf files f + o ∈ region.positions) (ho : o + region.length ≤ file.lexemes.length)

include hregion hf hp ho

/-- **The occurrences of a region are those of its run.** -/
theorem occurs_keys_iff {window : Nat × Nat} :
    Occurs files (file.keys o region.length) window
      ↔ ∃ file', files[window.1]? = some file' ∧ window.2 + region.length ≤ file'.lexemes.length
        ∧ startOf files window.1 + window.2 ∈ region.positions := by
  have hlength := file.length_keys ho
  constructor
  · rintro ⟨file', hf', ho', hkeys⟩
    rw [hlength] at ho' hkeys
    refine ⟨file', hf', ho', ?_⟩
    by_cases heq : startOf files f + o = startOf files window.1 + window.2
    · rwa [← heq]
    · exact hregion.closed _ hp _ heq
        (hregion.least_le.trans ((le_sharedAt_iff hf ho hf' ho').mpr hkeys.symm))
  · rintro ⟨file', hf', ho', hp'⟩
    refine ⟨file', hf', by rwa [hlength], ?_⟩
    rw [hlength]
    exact (le_sharedAt_iff hf' ho' hf ho).mp (hregion.shared _ hp' _ hp)

theorem occurs_keys : Occurs files (file.keys o region.length) (f, o) :=
  (occurs_keys_iff hregion hf hp ho).mpr ⟨file, hf, ho, hp⟩

omit hp ho in
/-- **A region has all the occurrences of a run** with which its windows start. -/
theorem mem_positions_of_occurs (hleast : 0 < least) (hp : startOf files f + o ∈ region.positions)
    {run : List String} (hrun : run.length = least) (hv : Occurs files run (f, o))
    {window : Nat × Nat} (hw : Occurs files run window) {file' : LexemeFile}
    (hfile' : files[window.1]? = some file') :
    startOf files window.1 + window.2 ∈ region.positions
      ∧ window.2 + region.length ≤ file'.lexemes.length := by
  obtain ⟨_, hv', hvo, hvkeys⟩ := hv
  obtain ⟨_, hw', hwo, hwkeys⟩ := hw
  obtain rfl := Option.some.inj (hf.symm.trans hv')
  obtain rfl := Option.some.inj (hfile'.symm.trans hw')
  have hposition : startOf files window.1 + window.2 ∈ region.positions := by
    by_cases heq : startOf files f + o = startOf files window.1 + window.2
    · exact heq ▸ hp
    · refine hregion.closed _ hp _ heq (hrun ▸ (le_sharedAt_iff hf hvo hfile' hwo).mpr ?_)
      exact hvkeys.trans hwkeys.symm
  exact ⟨hposition, le_length_of_mem hleast hregion hfile' (by omega) hposition⟩

include hleast

variable (hlines : ∀ file ∈ files, ∀ lexeme ∈ file.lexemes, 0 ≤ lexeme.line)

include hlines

/-- **A region without a group is crowded into one file.** -/
theorem crowded_of_group? (h : (ofFiles files).group? kind region.occurrences = none) :
    Crowded files f (file.keys o region.length) := by
  obtain ⟨g, gfile, first, hg, hfirst, hpfirst, hall⟩ :=
    crowded_of_group?_eq_none hleast hregion hlines h
  obtain ⟨rfl, -, -⟩ := hall f o file hf hp ho
  obtain ⟨q, hq, hne⟩ := hregion.exists_ne (startOf files f + first)
  obtain ⟨f', file', other, hf', hother, rfl⟩ := exists_window_of_mem hleast hregion hq
  obtain ⟨rfl, -, -⟩ := hall f' other file' hf' hq hother
  refine ⟨first, other, fun heq => hne (by rw [heq]), ?_, ?_, fun window hwindow => ?_⟩
  · exact (occurs_keys_iff hregion hf hp ho).mpr ⟨gfile, hg, hfirst, hpfirst⟩
  · exact (occurs_keys_iff hregion hf hp ho).mpr ⟨file', hf', hother, hq⟩
  · obtain ⟨wfile, hw, hwo, hwp⟩ := (occurs_keys_iff hregion hf hp ho).mp hwindow
    rw [file.length_keys ho]
    exact hall _ _ wfile hw hwp hwo

/-- **The group of a selected region reports its files.** -/
theorem reported_of_group? {twin : CloneGroup Float}
    (hselected : region ∈ (RepeatTable.ofSuffixes
      (SuffixArray.ofText (ofFiles files).codes)).selected (Int.ofNat least))
    (htwin : (ofFiles files).group? kind region.occurrences = some twin) :
    Reported files least (repeatedIn least kind files).value file.name := by
  have hsize := hregion.add_length_le hp
  have hlong := hregion.least_le
  obtain ⟨group, hgroup, hkey⟩ := exists_key_of_mem_selected hleast
    (List.ne_nil_of_mem (List.mem_of_getElem? hf)) (by rw [size]; omega) hselected htwin
  obtain ⟨windows, hrepeats⟩ := exists_repeats_of_group? hleast hregion htwin
  obtain ⟨clone, hclone, hname⟩ := exists_clone_of_group? hleast hregion hlines htwin hf hp ho
  refine ⟨group, hgroup, twin, _, windows, hrepeats, hkey.symm, ⟨clone, hclone, hname⟩, ?_⟩
  intro hbar
  obtain ⟨length, windows', hrepeats'⟩ := exists_repeats_of_mem hgroup
  obtain ⟨other, hother, heq⟩ := exists_clone_of_key_eq hrepeats' hrepeats hkey.symm hbar hclone
  exact ⟨other, hother, heq.trans hname⟩

/-- A window that is mostly covered by selected regions is mostly crowded, unless one of them
reports its file. -/
theorem reported_or_mostlyCrowded
    (hcovered : MostlyCovered (ofFiles files).codes.size ((RepeatTable.ofSuffixes
      (SuffixArray.ofText (ofFiles files).codes)).selected (Int.ofNat least)) region.length
      (startOf files f + o)) :
    Reported files least (repeatedIn least kind files).value file.name
      ∨ MostlyCrowded files region.length (f, o) := by
  by_cases hreported : Reported files least (repeatedIn least kind files).value file.name
  · exact Or.inl hreported
  · obtain ⟨offsets, hnodup, hmany, hcovers⟩ :=
      hcovered.exists_offsets (hregion.add_length_le hp)
    refine Or.inr ⟨offsets, hnodup, hmany, fun t ht => ?_⟩
    obtain ⟨hlt, r, hr, hlong, i, hi, hle, hend⟩ := hcovers t ht
    have hregion' := RepeatTable.isRegion_of_mem hleast (RepeatTable.mem_regions_of_mem_selected hr)
    obtain ⟨g, gfile, start, hg, hstart, rfl⟩ := exists_window_of_mem hleast hregion' hi
    -- the position covered belongs to one file only
    obtain ⟨rfl, hoffset⟩ := position_inj hg
      (show start + (startOf files f + o + t - (startOf files g + start)) ≤ gfile.lexemes.length by
        omega)
      hf (show o + t ≤ file.lexemes.length by omega) (by omega)
    obtain rfl := Option.some.inj (hf.symm.trans hg)
    refine ⟨hlt, file.keys start r.length, start, ?_, ?_, ?_, ?_, ?_⟩
    · rwa [file.length_keys hstart]
    · cases hgroup : (ofFiles files).group? kind r.occurrences with
      | none => exact crowded_of_group? hleast hregion' hf hi hstart hlines hgroup
      | some twin =>
        exact absurd (reported_of_group? hleast hregion' hf hi hstart hlines hr hgroup) hreported
    · exact occurs_keys hregion' hf hi hstart
    · dsimp only
      omega
    · rw [file.length_keys hstart]
      dsimp only
      omega

end Region

/-! ## Runs that two files share -/

/-- **What becomes of a run that two files share** — it extends to a run with the same occurrences,
and each of these is in a file that is reported or mostly crowded. -/
theorem exists_reported_or_mostlyCrowded (kind : CloneKind)
    (hlines : ∀ file ∈ files, ∀ lexeme ∈ file.lexemes, 0 ≤ lexeme.line) {run : List String}
    (hleast : 0 < run.length) {v w : Nat × Nat} (hne : v.1 ≠ w.1) (hv : Occurs files run v)
    (hw : Occurs files run w) :
    ∃ longer, run <+: longer ∧ (∀ window, Occurs files run window → Occurs files longer window)
      ∧ ∀ window file, Occurs files run window → files[window.1]? = some file →
        Reported files run.length (repeatedIn run.length kind files).value file.name
          ∨ MostlyCrowded files longer.length window := by
  obtain ⟨vfile, hvfile, hvo, hvkeys⟩ := id hv
  obtain ⟨wfile, hwfile, hwo, hwkeys⟩ := id hw
  have hshared := (le_sharedAt_iff hvfile hvo hwfile hwo).mpr (hvkeys.trans hwkeys.symm)
  have hstarts : startOf files v.1 + v.2 ≠ startOf files w.1 + w.2 := fun heq =>
    hne (position_inj hvfile (by omega) hwfile (by omega) heq).1
  obtain ⟨region, hmem, hvp, hwp⟩ := RepeatTable.exists_mem_regions hleast hstarts hshared
  have hregion := RepeatTable.isRegion_of_mem hleast hmem
  have hvfit := le_length_of_mem hleast hregion hvfile (by omega) hvp
  have hlonger : ∀ window, Occurs files run window →
      Occurs files (vfile.keys v.2 region.length) window := by
    intro window hrun
    obtain ⟨file, hfile, -, -⟩ := id hrun
    obtain ⟨hposition, hfit⟩ :=
      mem_positions_of_occurs hregion hvfile hleast hvp rfl hv hrun hfile
    exact (occurs_keys_iff hregion hvfile hvp hvfit).mpr ⟨file, hfile, hfit, hposition⟩
  refine ⟨vfile.keys v.2 region.length, ?_, hlonger, fun window file hrun hfile => ?_⟩
  · rw [← hvkeys]
    exact List.take_prefix_take_left hregion.least_le
  · obtain ⟨hposition, hfit⟩ :=
      mem_positions_of_occurs hregion hvfile hleast hvp rfl hv hrun hfile
    rw [vfile.length_keys hvfit]
    rcases RepeatTable.mem_selected_or_covered hmem with hselected | hcovered
    · cases hgroup : (ofFiles files).group? kind region.occurrences with
      | none =>
        -- but the region occurs in both files
        obtain ⟨_, _, -, -, -, hall⟩ :=
          crowded_of_group? hleast hregion hvfile hvp hvfit hlines hgroup
        exact absurd (hall w (hlonger w hw)).1.symm hne
      | some twin =>
        exact Or.inl
          (reported_of_group? hleast hregion hfile hposition hfit hlines hselected hgroup)
    · have hcovered := hcovered _ hposition
      rw [RepeatTable.size_lengths] at hcovered
      exact reported_or_mostlyCrowded hleast hregion hfile hposition hfit hlines hcovered

/-! ## Exact clones -/

/-- **Completeness of the detection up to crowded runs** — a run of the least number of texts that
two files share extends to one with the same occurrences, and each file in which it occurs is
reported unless its occurrences there are mostly crowded. -/
theorem exact_reported_or_mostlyCrowded {minimumTokens : Nat} {files : List SourceFile}
    (hminimum : 0 < minimumTokens)
    (hlines : ∀ file ∈ files, ∀ token ∈ file.tokens, 0 ≤ token.line) {run : List String}
    (hrun : run.length = minimumTokens) {v w : Nat × Nat} (hne : v.1 ≠ w.1)
    (hv : Occurs (files.map SourceFile.lexemes) run v)
    (hw : Occurs (files.map SourceFile.lexemes) run w) :
    ∃ longer, run <+: longer
      ∧ (∀ window, Occurs (files.map SourceFile.lexemes) run window →
        Occurs (files.map SourceFile.lexemes) longer window)
      ∧ ∀ window file, Occurs (files.map SourceFile.lexemes) run window →
        files[window.1]? = some file →
        Reported (files.map SourceFile.lexemes) minimumTokens
            (repeatedExact minimumTokens files).value file.name
          ∨ MostlyCrowded (files.map SourceFile.lexemes) longer.length window := by
  subst hrun
  have hlexemes : ∀ file ∈ files.map SourceFile.lexemes, ∀ lexeme ∈ file.lexemes,
      0 ≤ lexeme.line := by
    intro file hfile lexeme hlexeme
    obtain ⟨source, hsource, rfl⟩ := List.mem_map.mp hfile
    obtain ⟨token, htoken, rfl⟩ := List.mem_map.mp hlexeme
    exact hlines source hsource token (Array.mem_toList_iff.mp htoken)
  obtain ⟨longer, hextends, hoccurs, hreported⟩ :=
    exists_reported_or_mostlyCrowded .exact hlexemes hminimum hne hv hw
  refine ⟨longer, hextends, hoccurs, fun window file hwindow hfile => ?_⟩
  exact hreported window file.lexemes hwindow (by rw [List.getElem?_map, hfile, Option.map_some])

/-- A file with one token a line. -/
def lineByLine (name : String) (texts : List String) : SourceFile where
  name := name
  tokens := ((texts.zipIdx 1).map fun (text, line) =>
    ⟨.identifier, text, Int.ofNat line, 1⟩).toArray

/-- Two files that end a stretch of equal texts alike, and go on with a period of one and of two. -/
def periodic : List SourceFile :=
  [lineByLine "a.cpp" ["a", "a", "a", "a", "a", "a", "y", "a"],
    lineByLine "b.cpp" ["a", "a", "a", "y", "a", "y", "a", "y", "a", "y"]]

/-- What both files have in common. -/
def periodicRun : List String := ["a", "a", "a", "y", "a"]

theorem occurs_periodic : Occurs (periodic.map SourceFile.lexemes) periodicRun (0, 3)
    ∧ Occurs (periodic.map SourceFile.lexemes) periodicRun (1, 0) :=
  ⟨⟨_, rfl, by decide, by decide⟩, ⟨_, rfl, by decide, by decide⟩⟩

theorem periodic_reported_or_mostlyCrowded :
    Occurs (periodic.map SourceFile.lexemes) periodicRun (0, 3)
      ∧ Occurs (periodic.map SourceFile.lexemes) periodicRun (1, 0)
      ∧ ∃ longer, periodicRun <+: longer
        ∧ (∀ window, Occurs (periodic.map SourceFile.lexemes) periodicRun window →
          Occurs (periodic.map SourceFile.lexemes) longer window)
        ∧ ∀ window file,
          Occurs (periodic.map SourceFile.lexemes) periodicRun window →
          periodic[window.1]? = some file →
          Reported (periodic.map SourceFile.lexemes) 5 (repeatedExact 5 periodic).value file.name
            ∨ MostlyCrowded (periodic.map SourceFile.lexemes) longer.length window := by
  obtain ⟨hv, hw⟩ := occurs_periodic
  exact ⟨hv, hw, exact_reported_or_mostlyCrowded (by decide) (by decide) rfl (by decide) hv hw⟩

/-! ## A run that is lost -/

/-- The run that both files share is dropped for two others, each of them crowded into one file. -/
theorem selected_periodic : (RepeatTable.ofSuffixes (SuffixArray.ofText
      (ofFiles (periodic.map SourceFile.lexemes)).codes)).selected 5
    = [⟨[11, 13], 6, 7, 9⟩, ⟨[0, 1], 5, 0, 2⟩] := by
  have hcodes : (ofFiles (periodic.map SourceFile.lexemes)).codes
      = #[1, 1, 1, 1, 1, 1, 2, 1, 3, 1, 1, 1, 2, 1, 2, 1, 2, 1, 2, 4] := by
    rw [codes_eq]
    decide +kernel
  rw [hcodes, RepeatTable.ofSuffixes_eq
    #[0, 1, 2, 9, 3, 10, 4, 11, 13, 15, 5, 17, 7, 12, 14, 16, 6, 18, 8, 19]
    #[0, 5, 4, 3, 5, 2, 4, 1, 6, 4, 3, 2, 1, 0, 5, 3, 2, 1, 0, 0]
    ⟨by decide +kernel, by decide +kernel⟩ (by decide +kernel)]
  cbv

theorem value_periodic : (repeatedExact 5 periodic).value = [] := by
  have hnone : ∀ {found : Occurrences} {a b : Location},
      (ofFiles (periodic.map SourceFile.lexemes)).located found = [a, b] → Location.le a b = true →
      a.file = b.file → a.crowds b = true →
      (ofFiles (periodic.map SourceFile.lexemes)).group? .exact found = none := by
    intro found a b hlocated hle hfile hcrowds
    obtain ⟨fingerprint, hgroup⟩ :=
      group?_eq (ofFiles (periodic.map SourceFile.lexemes)) .exact found
    rw [hgroup, hlocated, Location.thin_pair hle hfile hcrowds]
    exact if_pos Nat.one_lt_two
  have hlonger : (ofFiles (periodic.map SourceFile.lexemes)).located ⟨[11, 13], 6⟩
      = [⟨1, 3, 8, 11, 16⟩, ⟨1, 5, 10, 13, 18⟩] := by decide +kernel
  have hshorter : (ofFiles (periodic.map SourceFile.lexemes)).located ⟨[0, 1], 5⟩
      = [⟨0, 1, 5, 0, 4⟩, ⟨0, 2, 6, 1, 5⟩] := by decide +kernel
  rw [repeatedExact, repeatedIn, if_neg (by decide), value_repeatedInStream]
  split
  · rfl
  · rw [assemble, show Int.ofNat 5 = 5 from rfl, selected_periodic]
    have hgroups : [(⟨[11, 13], 6⟩ : Occurrences), ⟨[0, 1], 5⟩].filterMap
        ((ofFiles (periodic.map SourceFile.lexemes)).group? .exact) = [] := by
      rw [List.filterMap_cons_none (hnone hlonger (by decide) rfl (by decide)),
        List.filterMap_cons_none (hnone hshorter (by decide) rfl (by decide)), List.filterMap_nil]
    exact congrArg distinctGroups hgroups

/-- **Not every run that two files share is reported** — the filter of repeats relies on groups that
thinning takes away. -/
theorem not_forall_exact_reported :
    ¬ ∀ (minimumTokens : Nat) (files : List SourceFile) (run : List String) (v w : Nat × Nat),
      0 < minimumTokens → (files.map SourceFile.name).Nodup →
      (∀ file ∈ files, ∀ token ∈ file.tokens, 1 ≤ token.line) → run.length = minimumTokens →
      v.1 ≠ w.1 → Occurs (files.map SourceFile.lexemes) run v →
      Occurs (files.map SourceFile.lexemes) run w →
      ∀ file, files[v.1]? = some file →
        ∃ group ∈ (repeatedExact minimumTokens files).value, ∃ clone ∈ group.clones,
          clone.file = file.name := by
  intro hcomplete
  obtain ⟨hv, hw⟩ := occurs_periodic
  obtain ⟨group, hgroup, -⟩ := hcomplete 5 periodic periodicRun (0, 3) (1, 0)
    (by decide) (by decide) (by decide) rfl (by decide) hv hw _ rfl
  rw [value_periodic] at hgroup
  exact absurd hgroup List.not_mem_nil

end CodeClones.Detect
