import CodeClones.Proofs.Clone.Key
import CodeClones.Proofs.Detect.WindowCoverage
import CodeClones.Proofs.Window.Layer

/-!
# Proofs/Detect/WindowOrder — the order of the files does not matter to windows

The parts of a bucket are the layers of the runs in it (`mem_partsOf_iff`).  Windows of different
sources never clash, so a layer of a run consists of one layer from each source
(`layer_windowsOf`), and that depends on nothing but the keys of the source.  Files in another order
therefore give groups of the same clones in another order (`exists_key_of_perm`), and the same keys
are returned (`windowed_keys_perm`).
-/

namespace CodeClones.Detect

open Log

/-! ## Layers of a source -/

namespace WindowSource

/-- Where a run stands in a source, from left to right. -/
def startsOf (source : WindowSource) (run : List String) : List Nat :=
  (List.range (source.keys.size + 1 - run.length)).filter fun start =>
    (source.keys.toList.drop start).take run.length == run

/-- **A layer of a run in a source** — starts of windows that do not crowd each other. -/
def layerOf (source : WindowSource) (run : List String) (k : Nat) : List Nat :=
  Window.layer (fun a b => decide (run.length / 2 < overlap run.length a b)) k
    (source.startsOf run)

/-- The clone of a window of a source. -/
def cloneAt (source : WindowSource) (width start : Nat) : Option Clone := do
  let first ← source.lines[start]?
  let last ← source.lines[start + width - 1]?
  return { file := source.name, startLine := first, endLine := last, tokenCount := Int.ofNat width }

end WindowSource

namespace WindowSearch

section Layers

variable {sources : List WindowSource} {width : Nat} {run : List String} {k : Nat}

/-- **The windows of a run**, source by source. -/
theorem windowsOf_eq (sources : List WindowSource) (run : List String) :
    windowsOf sources run = sources.zipIdx.flatMap fun (source, index) =>
      (source.startsOf run).map (Window.mk index) := by
  rw [windowsOf, allWindows, List.filter_flatMap]
  refine List.flatMap_congr fun entry hentry => ?_
  have hsource : sources[entry.2]? = some entry.1 := List.mk_mem_zipIdx_iff_getElem?.mp hentry
  dsimp only
  rw [List.filter_map, WindowSource.startsOf]
  refine congrArg _ (List.filter_congr fun start _ => ?_)
  have hkeys : keysOf sources.toArray run.length ⟨entry.2, start⟩ = _ := keysOf_eq hsource
  rw [Function.comp_apply, hkeys]

/-- **A layer of a run** consists of its layers in the sources. -/
theorem layer_windowsOf (sources : List WindowSource) (run : List String) (k : Nat) :
    Window.layer (Window.clash run.length) k (windowsOf sources run)
      = sources.zipIdx.flatMap fun (source, index) =>
          (source.layerOf run k).map (Window.mk index) := by
  have hindices : (sources.zipIdx.map Prod.snd).Nodup := by
    rw [List.zipIdx_map_snd]
    exact List.nodup_range'
  rw [windowsOf_eq, Window.layer_flatMap]
  · refine List.flatMap_congr fun entry _ => ?_
    dsimp only
    rw [Window.layer_map, WindowSource.layerOf]
    refine congrArg (fun clash => (Window.layer clash k _).map _) (funext₂ fun a b => ?_)
    rw [Window.clash, beq_self_eq_true, Bool.true_and]
    rfl
  · -- windows of different sources do not clash
    refine (List.pairwise_map.mp hindices).imp fun hne v hv w hw => clash_eq_false_iff.mpr ?_
    obtain ⟨start, -, rfl⟩ := List.mem_map.mp hv
    obtain ⟨start', -, rfl⟩ := List.mem_map.mp hw
    exact fun heq => absurd heq hne

/-- How many windows a layer has. -/
theorem length_layer_windowsOf (sources : List WindowSource) (run : List String) (k : Nat) :
    (Window.layer (Window.clash run.length) k (windowsOf sources run)).length
      = (sources.flatMap fun source => source.layerOf run k).length := by
  rw [layer_windowsOf, List.length_flatMap, List.length_flatMap]
  simp only [List.length_map]
  conv_rhs => rw [← List.zipIdx_map_fst 0 sources, List.map_map]
  rfl

/-- The clones of a layer, source by source. -/
theorem clones_layer_windowsOf (sources : List WindowSource) (run : List String) (k : Nat) :
    (Window.layer (Window.clash run.length) k (windowsOf sources run)).filterMap
        (cloneOf sources.toArray run.length)
      = sources.flatMap fun source =>
          (source.layerOf run k).filterMap (source.cloneAt run.length) := by
  rw [layer_windowsOf, List.filterMap_flatMap]
  conv_rhs => rw [← List.zipIdx_map_fst 0 sources, List.flatMap_map]
  refine List.flatMap_congr fun entry hentry => ?_
  have hsource : sources[entry.2]? = some entry.1 := List.mk_mem_zipIdx_iff_getElem?.mp hentry
  dsimp only
  rw [List.filterMap_map]
  refine List.filterMap_congr fun start _ => ?_
  rw [Function.comp_apply, cloneOf, List.getElem?_toArray, hsource]
  rfl

/-! ## Parts as layers -/

/-- **The parts of a run are its layers.** -/
theorem mem_parted_windowsOf_iff {members : List Window} :
    members ∈ Window.parted (joins sources.toArray run.length) (windowsOf sources run)
      ↔ members ≠ [] ∧ ∃ k, members
        = Window.layer (Window.clash run.length) k (windowsOf sources run) := by
  refine Window.mem_parted_iff_layer fun first hfirst a ha members => ?_
  rw [joins, eq_of_beq (List.mem_filter.mp hfirst).2, eq_of_beq (List.mem_filter.mp ha).2,
    beq_self_eq_true, Bool.true_and]
  rfl

/-- **The parts of a search are the layers of all runs.** -/
theorem mem_partsOf_iff (hwidth : 0 < width) {hash : UInt64} {members : List Window} :
    (hash, members) ∈ partsOf width sources
      ↔ ∃ run, run.length = width ∧ hash = hashOfRun run ∧ members ≠ []
        ∧ ∃ k, members = Window.layer (Window.clash width) k (windowsOf sources run) := by
  constructor
  · intro hpart
    -- a part belongs to the run of its first window
    obtain ⟨first, rest, rfl⟩ :=
      List.exists_cons_of_ne_nil (Window.ne_nil_of_mem_parted ((mem_partsOf hwidth).mp hpart))
    have hfirst : first ∈ first :: rest := List.mem_cons_self
    have hlength := length_keysOf (mem_allWindows_of_mem hwidth hpart hfirst)
    have hhash := hashOf_of_mem hwidth hpart hfirst
    obtain ⟨run, hrun⟩ : ∃ run, keysOf sources.toArray width first = run := ⟨_, rfl⟩
    rw [hashOf, hrun, ← hashOfRun] at hhash
    rw [hrun] at hlength
    subst hhash hlength
    refine ⟨run, rfl, rfl, mem_parted_windowsOf_iff.mp ?_⟩
    rw [parted_windowsOf]
    exact List.mem_filter.mpr ⟨(mem_partsOf hwidth).mp hpart, beq_iff_eq.mpr hrun⟩
  · rintro ⟨run, rfl, rfl, hlayer⟩
    have hpart := mem_parted_windowsOf_iff.mpr hlayer
    rw [parted_windowsOf] at hpart
    exact (mem_partsOf hwidth).mpr (List.mem_of_mem_filter hpart)

end Layers

/-! ## Groups of exact searches -/

section Exact

variable {S : Type} [Scoring S] {sources sources' : List WindowSource} {width : Nat} {least : S}

/-- **The group of a layer**, its clones source by source. -/
def groupOfLayer (S : Type) [Scoring S] (sources : List WindowSource) (run : List String)
    (k : Nat) : CloneGroup S where
  kind := .exact
  clones := sources.flatMap fun source =>
    (source.layerOf run k).filterMap (source.cloneAt run.length)
  similarity := Scoring.one
  fingerprint := toString (hashOfRun run).toNat

/-- **What an exact search finds** — the groups of the layers with at least two windows. -/
theorem mem_found_iff (hwidth : 0 < width) {group : CloneGroup S} :
    group ∈ found ⟨width, .exact, least⟩ sources
      ↔ ∃ run, run.length = width
        ∧ ∃ k, 2 ≤ (sources.flatMap fun source => source.layerOf run k).length
          ∧ group = groupOfLayer S sources run k := by
  have hgroup : ∀ run : List String, ∀ k, run.length = width →
      group? (S := S) ⟨width, .exact, least⟩ sources.toArray (hashOfRun run)
          (Window.layer (Window.clash width) k (windowsOf sources run))
        = if (sources.flatMap fun source => source.layerOf run k).length < 2 then none
          else some (groupOfLayer S sources run k) := by
    rintro run k rfl
    rw [group?, grade?_exact rfl, length_layer_windowsOf, clones_layer_windowsOf]
    rfl
  rw [mem_found]
  constructor
  · rintro ⟨⟨hash, members⟩, hpart, hsome⟩
    obtain ⟨run, hrun, rfl, -, k, rfl⟩ := (mem_partsOf_iff hwidth).mp hpart
    rw [hgroup run k hrun] at hsome
    split at hsome
    · exact absurd hsome (Option.some_ne_none _).symm
    · next htwo => exact ⟨run, hrun, k, Nat.not_lt.mp htwo, (Option.some.inj hsome).symm⟩
  · rintro ⟨run, hrun, k, htwo, rfl⟩
    refine ⟨(hashOfRun run, _), (mem_partsOf_iff hwidth).mpr ⟨run, hrun, rfl, ?_, k, rfl⟩, ?_⟩
    · subst hrun
      refine List.ne_nil_of_length_pos ?_
      rw [length_layer_windowsOf]
      omega
    · rw [hgroup run k hrun, if_neg (Nat.not_lt.mpr htwo)]

/-- **Sources in another order** give a group of the same key. -/
theorem exists_key_of_perm (hwidth : 0 < width) (hperm : sources.Perm sources')
    {group : CloneGroup S} (hgroup : group ∈ found ⟨width, .exact, least⟩ sources) :
    ∃ twin ∈ found ⟨width, .exact, least⟩ sources', twin.key = group.key := by
  obtain ⟨run, hrun, k, htwo, rfl⟩ := (mem_found_iff hwidth).mp hgroup
  refine ⟨groupOfLayer S sources' run k, (mem_found_iff hwidth).mpr ⟨run, hrun, k, ?_, rfl⟩,
    key_eq_of_perm (hperm.flatMap_right _).symm⟩
  rwa [← (hperm.flatMap_right _).length_eq]

theorem mem_keys_of_perm (hwidth : 0 < width) (hperm : sources.Perm sources') {key : String}
    (hkey : key ∈ (distinctGroups (found ⟨width, .exact, least⟩ sources)).map CloneGroup.key) :
    key ∈ (distinctGroups (found ⟨width, .exact, least⟩ sources')).map CloneGroup.key := by
  obtain ⟨group, hgroup, rfl⟩ := List.mem_map.mp hkey
  obtain ⟨twin, htwin, hsame⟩ :=
    exists_key_of_perm hwidth hperm ((distinctGroups_sublist _).subset hgroup)
  obtain ⟨kept, hkept, hkeptkey⟩ := exists_key_distinctGroups htwin
  exact List.mem_map.mpr ⟨kept, hkept, hkeptkey.trans hsame⟩

end Exact

end WindowSearch

/-! ## Exact clones -/

/-- **The order of the files does not matter** — however they are arranged, the same keys are
returned, each of them once. -/
theorem windowed_keys_perm {S : Type} [Scoring S] (width : Nat) (least : S)
    {files files' : List SourceFile} (hperm : files.Perm files') :
    ((windowedExact width least files).value.map CloneGroup.key).Perm
      ((windowedExact width least files').value.map CloneGroup.key) := by
  rcases Nat.eq_zero_or_pos width with rfl | hwidth
  · have hnone : ∀ files : List SourceFile, (windowedExact 0 least files).value = [] :=
      fun files => by
        rw [windowedExact, windowedIn, if_pos (by simp)]
        rfl
    rw [hnone, hnone]
  have hvalue : ∀ files : List SourceFile, (windowedExact width least files).value
      = distinctGroups (WindowSearch.found ⟨width, .exact, least⟩
        (files.map WindowSource.ofFile)) := fun files => WindowSearch.value_windowedIn hwidth _
  have hnodup : ∀ groups : List (CloneGroup S),
      ((distinctGroups groups).map CloneGroup.key).Nodup := fun groups =>
    List.pairwise_map.mpr (pairwise_key_distinctGroups groups)
  have hsources := hperm.map WindowSource.ofFile
  rw [hvalue, hvalue]
  refine (List.perm_ext_iff_of_nodup (hnodup _) (hnodup _)).mpr fun key => ⟨?_, ?_⟩
  · exact WindowSearch.mem_keys_of_perm hwidth hsources
  · exact WindowSearch.mem_keys_of_perm hwidth hsources.symm

/-- Two files swapped, in the first of which the run of three equal tokens has two layers. -/
theorem windowed_keys_perm_swapped :
    let token : Nat → Token := fun line => ⟨.identifier, "x", line, 1⟩
    let five : SourceFile := ⟨"a.cpp", #[token 1, token 2, token 3, token 4, token 5], #[]⟩
    let three : SourceFile := ⟨"b.cpp", #[token 1, token 2, token 3], #[]⟩
    [five, three].Perm [three, five]
      ∧ (WindowSource.ofFile five).layerOf ["x", "x", "x"] 0 = [0, 2]
      ∧ (WindowSource.ofFile five).layerOf ["x", "x", "x"] 1 = [1]
      ∧ ((windowedExact 3 (0 : Float) [five, three]).value.map CloneGroup.key).Perm
        ((windowedExact 3 (0 : Float) [three, five]).value.map CloneGroup.key) := by
  intro token five three
  have hperm : [five, three].Perm [three, five] := List.Perm.swap _ _ _
  exact ⟨hperm, by decide +kernel, by decide +kernel, windowed_keys_perm 3 0 hperm⟩

end CodeClones.Detect
