import CodeClones.Proofs.Detect.Windowed

/-!
# Proofs/Detect/WindowCoverage — what the detection by windows cannot miss

The windows at which a run occurs all have one hash, and strangers in their bucket neither join them
nor take them.  So the first of them opens a part (`mem_partsOf_of_windowsOf`), which the first
window of every file joins (`mem_partOf_of_first`), and which has a second member as soon as the run
occurs twice with little overlap (`two_le_length_partOf`).
-/

namespace CodeClones.Detect

open Log

/-- **A run is covered** — a group is returned under the key of one of windows at which the run
occurs, and among these is its first window in every file. -/
def Covered {S : Type} (files : List LexemeFile) (groups : List (CloneGroup S))
    (run : List String) : Prop :=
  ∃ group ∈ groups, ∃ windows, ∃ twin : CloneGroup S, EqualWindows files run.length windows twin
    ∧ twin.key = group.key ∧ (∀ window ∈ windows, Occurs files run window)
    ∧ ∀ f offset, Occurs files run (f, offset) →
      (∀ earlier < offset, ¬Occurs files run (f, earlier)) → (f, offset) ∈ windows

namespace WindowSearch

/-! ## The windows of a run -/

/-- The windows at which a run occurs, in order. -/
def windowsOf (sources : List WindowSource) (run : List String) : List Window :=
  (allWindows run.length sources).filter fun window =>
    keysOf sources.toArray run.length window == run

section Run

variable {sources : List WindowSource} {files : List LexemeFile} {run : List String}
  {window first : Window} {rest : List Window}

theorem mem_windowsOf (hshows : List.Forall₂ WindowSource.Shows sources files) :
    window ∈ windowsOf sources run ↔ Occurs files run window.place := by
  rw [windowsOf, List.mem_filter, beq_iff_eq, occurs_place_iff hshows]

theorem pairwise_windowsOf (sources : List WindowSource) (run : List String) :
    (windowsOf sources run).Pairwise Window.Before :=
  (pairwise_allWindows run.length sources).filter _

/-- The hash that all windows of a run have. -/
def hashOfRun (run : List String) : UInt64 :=
  RollingHash.ofValues (run.map RollingHash.ofText)

/-- **The windows of a run share a bucket.** -/
theorem filter_bucketOf (sources : List WindowSource) (run : List String) :
    ((bucketOf run.length sources (hashOfRun run)).filter fun window =>
      keysOf sources.toArray run.length window == run) = windowsOf sources run := by
  rw [bucketOf, List.filter_filter, windowsOf]
  refine List.filter_congr fun window _ => ?_
  rw [Bool.and_eq_left_iff_imp, beq_iff_eq, beq_iff_eq]
  rintro hkeys
  rw [hashOf, hkeys, hashOfRun]

/-- **The parts of a run** are those parts of its bucket that open with it. -/
theorem parted_windowsOf (sources : List WindowSource) (run : List String) :
    Window.parted (joins sources.toArray run.length) (windowsOf sources run)
      = (Window.parted (joins sources.toArray run.length)
          (bucketOf run.length sources (hashOfRun run))).filter
        (Window.opensWith fun window => keysOf sources.toArray run.length window == run) := by
  rw [← filter_bucketOf]
  exact Window.parted_filter (fun opener members a hjoins => by rw [(joins_iff.mp hjoins).1]) _

/-- The part that the first window of a run opens. -/
def partOf (sources : List WindowSource) (width : Nat) (first : Window) (rest : List Window) :
    List Window :=
  (Window.collect (joins sources.toArray width first) [first] rest).1

/-- **The first window of a run opens a part**, whatever else is in its bucket. -/
theorem mem_partsOf_of_windowsOf (hrun : 0 < run.length)
    (h : windowsOf sources run = first :: rest) :
    (hashOfRun run, partOf sources run.length first rest) ∈ partsOf run.length sources := by
  have hparts := parted_windowsOf sources run
  rw [h, Window.parted] at hparts
  exact (mem_partsOf hrun).mpr (List.mem_of_mem_filter (hparts ▸ List.mem_cons_self))

theorem prefix_partOf (sources : List WindowSource) (width : Nat) (first : Window)
    (rest : List Window) : [first] <+: partOf sources width first rest :=
  Window.prefix_collect _ _ _

variable (h : windowsOf sources run = first :: rest)

include h

theorem keysOf_first : keysOf sources.toArray run.length first = run := by
  have hfirst : first ∈ windowsOf sources run := h ▸ List.mem_cons_self
  exact eq_of_beq (List.mem_filter.mp hfirst).2

/-- **The windows of that part are windows of the run.** -/
theorem mem_windowsOf_of_mem (hrun : 0 < run.length)
    (hwindow : window ∈ partOf sources run.length first rest) :
    window ∈ windowsOf sources run := by
  have hpart := mem_partsOf_of_windowsOf hrun h
  obtain ⟨opener, halike⟩ := exists_alike_of_mem_partsOf hrun hpart
  refine List.mem_filter.mpr ⟨mem_allWindows_of_mem hrun hpart hwindow, beq_iff_eq.mpr ?_⟩
  have hfirst := (prefix_partOf sources run.length first rest).subset List.mem_cons_self
  rw [← halike.same window hwindow, halike.same first hfirst, keysOf_first h]

/-- **A window of the run is tried** against members that come before it. -/
theorem exists_met (hwindow : window ∈ rest) :
    ∃ met, [first] <+: met ∧ met <+: partOf sources run.length first rest
      ∧ (∀ member ∈ met, member ∈ windowsOf sources run ∧ member.Before window)
      ∧ ((∀ member ∈ met, member.clash run.length window = false) →
        window ∈ partOf sources run.length first rest) := by
  obtain ⟨before, after, rfl⟩ := List.append_of_mem hwindow
  obtain ⟨met, hfirst, hmet, hpart, hmem⟩ :=
    Window.exists_tried (joins sources.toArray run.length first) [first] before after window
  have hsplit : windowsOf sources run = ([first] ++ before) ++ window :: after := by
    rw [h, List.append_assoc, List.singleton_append]
  have hordered := pairwise_windowsOf sources run
  rw [hsplit, List.pairwise_append] at hordered
  refine ⟨met, hfirst, hpart, fun member hmember => ⟨?_, ?_⟩, fun hclash => hmem ?_⟩
  · rw [hsplit]
    exact List.mem_append_left _ (hmet hmember)
  · exact hordered.2.2 member (hmet hmember) window List.mem_cons_self
  · have hwindow : window ∈ windowsOf sources run := hsplit ▸
      List.mem_append_right _ List.mem_cons_self
    refine joins_iff.mpr ⟨?_, hclash⟩
    rw [keysOf_first h, eq_of_beq (List.mem_filter.mp hwindow).2]

/-- **The first window of a file joins**, since those tried before it are of other files. -/
theorem mem_partOf_of_first (hwindow : window ∈ windowsOf sources run)
    (hfirst : ∀ earlier ∈ windowsOf sources run, earlier.source = window.source →
      window.start ≤ earlier.start) : window ∈ partOf sources run.length first rest := by
  rw [h] at hwindow
  rcases List.mem_cons.mp hwindow with rfl | hwindow
  · exact (prefix_partOf sources run.length window rest).subset List.mem_cons_self
  · obtain ⟨met, -, -, hbefore, hmem⟩ := exists_met h hwindow
    refine hmem fun member hmember => clash_eq_false_iff.mpr fun hsource => ?_
    obtain ⟨hmember, hlt | ⟨-, hlt⟩⟩ := hbefore member hmember
    · exact absurd hsource hlt.ne
    · exact absurd (hfirst member hmember hsource) (Nat.not_le.mpr hlt)

omit h in
/-- A later window that clashes with the first one crowds it. -/
theorem crowded_of_clash {width : Nat} (hbefore : first.Before window)
    (hclash : ¬first.clash width window = false) : first.source = window.source
      ∧ first.start ≤ window.start ∧ width / 2 < overlap width first.start window.start := by
  rw [clash_eq_false_iff, Classical.not_imp, Nat.not_le] at hclash
  refine ⟨hclash.1, ?_, hclash.2⟩
  rcases hbefore with hlt | ⟨-, hlt⟩
  · exact absurd hclash.1 hlt.ne
  · exact hlt.le

/-- **If the first window stays alone**, all windows of the run crowd it. -/
theorem crowded_of_length_lt (hrun : 0 < run.length)
    (halone : (partOf sources run.length first rest).length < 2)
    (hwindow : window ∈ windowsOf sources run) : first.source = window.source
      ∧ first.start ≤ window.start
      ∧ run.length / 2 < overlap run.length first.start window.start := by
  rw [h] at hwindow
  rcases List.mem_cons.mp hwindow with rfl | hwindow
  · refine ⟨rfl, le_rfl, ?_⟩
    rw [overlap, min_self, max_self]
    omega
  · have hopening := prefix_partOf sources run.length first rest
    have hpart : partOf sources run.length first rest = [first] :=
      (hopening.eq_of_length_le (Nat.le_of_lt_succ halone)).symm
    obtain ⟨met, hopens, hmet, hbefore, hmem⟩ := exists_met h hwindow
    rw [hpart] at hmet hmem
    have hfirst := (hbefore first (hopens.subset List.mem_cons_self)).2
    refine crowded_of_clash hfirst fun hclash => hfirst.ne ?_
    refine (List.mem_singleton.mp (hmem fun member hmember => ?_)).symm
    rwa [List.mem_singleton.mp (hmet.subset hmember)]

/-- **Two windows with little overlap** make that the first one is not alone. -/
theorem two_le_length_partOf (hrun : 0 < run.length) {v w : Window}
    (hv : v ∈ windowsOf sources run) (hw : w ∈ windowsOf sources run)
    (hfar : v.source = w.source → overlap run.length v.start w.start ≤ run.length / 2) :
    2 ≤ (partOf sources run.length first rest).length := by
  by_contra halone
  obtain ⟨hvsource, hvstart, hvoverlap⟩ := crowded_of_length_lt h hrun (Nat.not_le.mp halone) hv
  obtain ⟨hwsource, hwstart, hwoverlap⟩ := crowded_of_length_lt h hrun (Nat.not_le.mp halone) hw
  have hfar := hfar (hvsource.symm.trans hwsource)
  rw [overlap] at hfar hvoverlap hwoverlap
  omega

end Run

/-! ## The group of a run -/

section Group

variable {S : Type} [Scoring S] {sources : List WindowSource} {files : List LexemeFile}
  {run : List String}

/-- **A run that occurs twice with little overlap is covered.** -/
theorem covered_of_occurs (least : S) (hshows : List.Forall₂ WindowSource.Shows sources files)
    (hrun : 0 < run.length) {v w : Nat × Nat} (hv : Occurs files run v) (hw : Occurs files run w)
    (hfar : v.1 = w.1 → overlap run.length v.2 w.2 ≤ run.length / 2) :
    Covered files (windowedIn ⟨run.length, .exact, least⟩ sources).value run := by
  have hv : ⟨v.1, v.2⟩ ∈ windowsOf sources run := (mem_windowsOf hshows).mpr hv
  have hw : ⟨w.1, w.2⟩ ∈ windowsOf sources run := (mem_windowsOf hshows).mpr hw
  obtain ⟨first, rest, h⟩ := List.exists_cons_of_ne_nil (List.ne_nil_of_mem hv)
  have hwidth : 0 < (⟨run.length, .exact, least⟩ : WindowSearch S).width := hrun
  obtain ⟨group, hgroup, twin, hequal, hkey⟩ := exists_returned hwidth hshows
    (mem_partsOf_of_windowsOf hrun h) (two_le_length_partOf h hrun hv hw hfar) (grade?_exact rfl)
  refine ⟨group, hgroup, _, twin, hequal, hkey, fun place hplace => ?_,
    fun f offset hoccurs hfirst => ?_⟩
  · obtain ⟨window, hwindow, rfl⟩ := List.mem_map.mp hplace
    exact (mem_windowsOf hshows).mp (mem_windowsOf_of_mem h hrun hwindow)
  · have hwindow : ⟨f, offset⟩ ∈ windowsOf sources run := (mem_windowsOf hshows).mpr hoccurs
    refine List.mem_map.mpr ⟨⟨f, offset⟩, mem_partOf_of_first h hwindow ?_, rfl⟩
    rintro ⟨f', earlier⟩ hearlier rfl
    exact Nat.not_lt.mp fun hlt => hfirst earlier hlt ((mem_windowsOf hshows).mp hearlier)

end Group

end WindowSearch

/-! ## Exact clones -/

/-- **Completeness of the detection by windows** — a run of token texts that occurs twice, in
different files or with an overlap of half its length at most, is covered. -/
theorem windowed_covers {S : Type} [Scoring S] (least : S) (files : List SourceFile)
    {run : List String} (hrun : 0 < run.length) {v w : Nat × Nat}
    (hv : Occurs (files.map SourceFile.lexemes) run v)
    (hw : Occurs (files.map SourceFile.lexemes) run w)
    (hfar : v.1 = w.1 → overlap run.length v.2 w.2 ≤ run.length / 2) :
    Covered (files.map SourceFile.lexemes) (windowedExact run.length least files).value run :=
  WindowSearch.covered_of_occurs least (forall₂_shows_ofFile files) hrun hv hw hfar

/-- Three equal tokens have two windows of two tokens that share one. -/
theorem windowed_covers_shifted :
    let token : Token := ⟨.identifier, "x", 1, 1⟩
    let files : List SourceFile := [⟨"a", #[token, token, token], #[]⟩]
    Occurs (files.map SourceFile.lexemes) ["x", "x"] (0, 0)
      ∧ Occurs (files.map SourceFile.lexemes) ["x", "x"] (0, 1) ∧ overlap 2 0 1 ≤ 2 / 2
      ∧ Covered (files.map SourceFile.lexemes) (windowedExact 2 (0 : Float) files).value
        ["x", "x"] := by
  intro token files
  have hfirst : Occurs (files.map SourceFile.lexemes) ["x", "x"] (0, 0) :=
    ⟨_, rfl, by decide, rfl⟩
  have hsecond : Occurs (files.map SourceFile.lexemes) ["x", "x"] (0, 1) :=
    ⟨_, rfl, by decide, rfl⟩
  have hfar : overlap 2 0 1 ≤ 2 / 2 := by decide
  have hrun : 0 < ["x", "x"].length := by decide
  exact ⟨hfirst, hsecond, hfar, windowed_covers 0 files hrun hfirst hsecond fun _ => hfar⟩

end CodeClones.Detect
