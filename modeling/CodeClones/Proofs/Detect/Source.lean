import CodeClones.Detect.Windowed
import CodeClones.Proofs.Token.Window
import CodeClones.Proofs.Window.Bucket
import CodeClones.Proofs.Window.RollingHash

/-!
# Proofs/Detect/Source — the windows of the sources, and the clones they are

A source shows a file by its keys and its lines, so the keys of a window occur there
(`occurs_place_iff`) and its clone is that of a window of the file (`exists_cloneOf`).  Rolling over
the sources gives every window once, with the hash of its keys (`entries_eq`).
-/

namespace CodeClones

/-- Where a window is, as a file and an offset. -/
def Window.place (window : Window) : Nat × Nat :=
  (window.source, window.start)

theorem Window.place_injective : Function.Injective Window.place := fun v w h => by
  obtain ⟨hsource, hstart⟩ := Prod.mk.inj h
  cases v
  cases w
  exact congrArg₂ Window.mk hsource hstart

/-- **One window comes before another** — its source does, or it starts earlier in the same one. -/
def Window.Before (v w : Window) : Prop :=
  v.source < w.source ∨ v.source = w.source ∧ v.start < w.start

theorem Window.Before.ne {v w : Window} (h : v.Before w) : v ≠ w := by
  rintro rfl
  rcases h with h | ⟨-, h⟩
  · exact lt_irrefl _ h
  · exact lt_irrefl _ h

namespace Detect

/-! ## Sources and files -/

/-- **A source shows a file** — its name, and the keys and lines of its lexemes in order. -/
structure WindowSource.Shows (source : WindowSource) (file : LexemeFile) : Prop where
  name : source.name = file.name
  keys : source.keys.toList = file.lexemes.map Lexeme.key
  lines : source.lines.toList = file.lexemes.map Lexeme.line

theorem WindowSource.shows_ofFile (file : SourceFile) :
    (WindowSource.ofFile file).Shows file.lexemes where
  name := rfl
  keys := by rw [ofFile, Array.toList_map, SourceFile.lexemes, List.map_map]; rfl
  lines := by rw [ofFile, Array.toList_map, SourceFile.lexemes, List.map_map]; rfl

theorem WindowSource.shows_ofNormalized (file : NormalizedFile) :
    (WindowSource.ofNormalized file).Shows file.lexemes where
  name := rfl
  keys := by rw [ofNormalized, Array.toList_map, NormalizedFile.lexemes, List.map_map]; rfl
  lines := by rw [ofNormalized, Array.toList_map, NormalizedFile.lexemes, List.map_map]; rfl

theorem forall₂_shows_ofFile (files : List SourceFile) :
    List.Forall₂ WindowSource.Shows (files.map WindowSource.ofFile)
      (files.map SourceFile.lexemes) := by
  rw [List.forall₂_map_left_iff, List.forall₂_map_right_iff, List.forall₂_same]
  exact fun file _ => WindowSource.shows_ofFile file

theorem forall₂_shows_ofNormalized (files : List NormalizedFile) :
    List.Forall₂ WindowSource.Shows (files.map WindowSource.ofNormalized)
      (files.map NormalizedFile.lexemes) := by
  rw [List.forall₂_map_left_iff, List.forall₂_map_right_iff, List.forall₂_same]
  exact fun file _ => WindowSource.shows_ofNormalized file

/-! ## All windows -/

namespace WindowSearch

variable {sources : List WindowSource} {width : Nat} {window : Window}

/-- The windows of all sources, source by source and from left to right. -/
def allWindows (width : Nat) (sources : List WindowSource) : List Window :=
  sources.zipIdx.flatMap fun (source, index) =>
    (List.range (source.keys.size + 1 - width)).map (Window.mk index)

/-- **A window lies within its source.** -/
theorem mem_allWindows : window ∈ allWindows width sources
    ↔ ∃ source, sources[window.source]? = some source
      ∧ window.start + width ≤ source.keys.size := by
  rw [allWindows, List.mem_flatMap]
  constructor
  · rintro ⟨⟨source, index⟩, hsource, hwindow⟩
    obtain ⟨start, hstart, rfl⟩ := List.mem_map.mp hwindow
    have hlt := List.mem_range.mp hstart
    exact ⟨source, List.mk_mem_zipIdx_iff_getElem?.mp hsource, by dsimp only; omega⟩
  · rintro ⟨source, hsource, hfits⟩
    refine ⟨(source, window.source), List.mk_mem_zipIdx_iff_getElem?.mpr hsource, ?_⟩
    exact List.mem_map.mpr ⟨window.start, List.mem_range.mpr (by omega), rfl⟩

/-- **The windows are in order**, so each comes once. -/
theorem pairwise_allWindows (width : Nat) (sources : List WindowSource) :
    (allWindows width sources).Pairwise Window.Before := by
  refine List.pairwise_flatMap.mpr ⟨fun entry _ => ?_, ?_⟩
  · rw [List.pairwise_map]
    exact List.pairwise_lt_range.imp fun hlt => Or.inr ⟨rfl, hlt⟩
  · have hindices : (sources.zipIdx.map Prod.snd).Pairwise (· < ·) := by
      rw [List.zipIdx_map_snd]
      exact List.pairwise_lt_range'
    refine (List.pairwise_map.mp hindices).imp fun hlt v hv w hw => Or.inl ?_
    obtain ⟨start, -, rfl⟩ := List.mem_map.mp hv
    obtain ⟨start', -, rfl⟩ := List.mem_map.mp hw
    exact hlt

theorem nodup_allWindows (width : Nat) (sources : List WindowSource) :
    (allWindows width sources).Nodup :=
  (pairwise_allWindows width sources).imp Window.Before.ne

/-! ## Hashes of windows -/

/-- The hash of the keys of a window. -/
def hashOf (width : Nat) (sources : List WindowSource) (window : Window) : UInt64 :=
  RollingHash.ofValues ((keysOf sources.toArray width window).map RollingHash.ofText)

theorem textsOf_eq (column : WindowSource → Array String) {source : WindowSource}
    (h : sources[window.source]? = some source) : textsOf column sources.toArray width window
      = ((column source).toList.drop window.start).take width := by
  rw [textsOf, List.getElem?_toArray, h]
  dsimp only
  rw [Array.toList_extract, List.extract_eq_take_drop, Nat.add_sub_cancel_left]

theorem keysOf_eq {source : WindowSource} (h : sources[window.source]? = some source) :
    keysOf sources.toArray width window
      = (source.keys.toList.drop window.start).take width :=
  textsOf_eq WindowSource.keys h

theorem zipIdx_map_range {α : Type} (f : Nat → α) (n : Nat) :
    ((List.range n).map f).zipIdx = (List.range n).map fun i => (f i, i) := by
  refine List.ext_getElem (by simp) fun i hi hi' => ?_
  simp

/-- **Rolling over one source** gives each of its windows the hash of its keys. -/
theorem hashed_eq (hwidth : 0 < width) {source : WindowSource} {index : Nat}
    (hsource : sources[index]? = some source) :
    hashed (RollingHash.ofWidth width) source index
      = (List.range (source.keys.size + 1 - width)).map fun start =>
          (hashOf width sources ⟨index, start⟩, ⟨index, start⟩) := by
  have hvalues : ∀ value ∈ source.keys.toList.map RollingHash.ofText,
      value < RollingHash.modulus := by
    intro value hvalue
    obtain ⟨text, -, rfl⟩ := List.mem_map.mp hvalue
    exact RollingHash.ofText_lt text
  rw [hashed, RollingHash.windows_eq hwidth hvalues, List.length_map, Array.length_toList,
    zipIdx_map_range, List.map_map]
  refine List.map_congr_left fun start _ => Prod.ext ?_ rfl
  have hkeys : keysOf sources.toArray width ⟨index, start⟩ = _ := keysOf_eq hsource
  change RollingHash.windowAt _ _ _ = hashOf width sources ⟨index, start⟩
  rw [hashOf, hkeys, List.map_take, List.map_drop]
  rfl

/-- What a search enters into its buckets. -/
def entries (width : Nat) (sources : List WindowSource) : List (UInt64 × Window) :=
  sources.zipIdx.flatMap fun (source, index) =>
    hashed (RollingHash.ofWidth width) source index

/-- **Every window is entered once**, with the hash of its keys. -/
theorem entries_eq (hwidth : 0 < width) (sources : List WindowSource) :
    entries width sources
      = (allWindows width sources).map fun window => (hashOf width sources window, window) := by
  rw [entries, allWindows, List.map_flatMap]
  refine List.flatMap_congr fun entry hentry => ?_
  dsimp only
  rw [hashed_eq hwidth (List.mk_mem_zipIdx_iff_getElem?.mp hentry), List.map_map]
  rfl

/-! ## Windows of files -/

section Related

variable {files : List LexemeFile} {r : WindowSource → LexemeFile → Prop} {index : Nat}

theorem exists_file (h : List.Forall₂ r sources files) {source : WindowSource}
    (hsource : sources[index]? = some source) :
    ∃ file, files[index]? = some file ∧ r source file := by
  obtain ⟨hindex, rfl⟩ := List.getElem?_eq_some_iff.mp hsource
  have hindex' := h.length_eq ▸ hindex
  exact ⟨files[index], List.getElem?_eq_getElem hindex', h.get hindex hindex'⟩

theorem exists_source (h : List.Forall₂ r sources files) {file : LexemeFile}
    (hfile : files[index]? = some file) :
    ∃ source, sources[index]? = some source ∧ r source file := by
  obtain ⟨hindex', rfl⟩ := List.getElem?_eq_some_iff.mp hfile
  have hindex := h.length_eq.symm ▸ hindex'
  exact ⟨sources[index], List.getElem?_eq_getElem hindex, h.get hindex hindex'⟩

end Related

section Shown

variable {files : List LexemeFile} (hshows : List.Forall₂ WindowSource.Shows sources files)

include hshows

/-- **A run occurs at the windows that have its keys.** -/
theorem occurs_place_iff {run : List String} : Occurs files run window.place
    ↔ window ∈ allWindows run.length sources ∧ keysOf sources.toArray run.length window = run := by
  rw [mem_allWindows]
  constructor
  · rintro ⟨file, hfile, hfits, hkeys⟩
    obtain ⟨source, hsource, hshown⟩ := exists_source hshows hfile
    refine ⟨⟨source, hsource, ?_⟩, ?_⟩
    · rwa [← Array.length_toList, hshown.keys, List.length_map]
    · rwa [keysOf_eq hsource, hshown.keys]
  · rintro ⟨⟨source, hsource, hfits⟩, hkeys⟩
    obtain ⟨file, hfile, hshown⟩ := exists_file hshows hsource
    rw [keysOf_eq hsource, hshown.keys] at hkeys
    rw [← Array.length_toList, hshown.keys, List.length_map] at hfits
    exact ⟨file, hfile, hfits, hkeys⟩

omit hshows in
theorem length_keysOf (h : window ∈ allWindows width sources) :
    (keysOf sources.toArray width window).length = width := by
  obtain ⟨source, hsource, hfits⟩ := mem_allWindows.mp h
  rw [keysOf_eq hsource, List.length_take, List.length_drop, Array.length_toList]
  omega

theorem occurs_keysOf (h : window ∈ allWindows width sources) :
    Occurs files (keysOf sources.toArray width window) window.place := by
  rw [occurs_place_iff hshows, length_keysOf h]
  exact ⟨h, rfl⟩

/-- **Every window has its clone.** -/
theorem exists_cloneOf (hwidth : 0 < width) (h : window ∈ allWindows width sources) :
    ∃ clone, cloneOf sources.toArray width window = some clone
      ∧ IsCloneAt files width window.place clone := by
  obtain ⟨source, hsource, hfits⟩ := mem_allWindows.mp h
  obtain ⟨file, hfile, hshown⟩ := exists_file hshows hsource
  have hlines := hshown.lines
  rw [← Array.length_toList, hshown.keys, List.length_map] at hfits
  have hline : ∀ offset : Nat, source.lines[offset]? = file.lexemes[offset]?.map Lexeme.line := by
    intro offset
    rw [← Array.getElem?_toList, hlines, List.getElem?_map]
  have hfirst := List.getElem?_eq_getElem (l := file.lexemes) (i := window.start) (by omega)
  have hlast := List.getElem?_eq_getElem (l := file.lexemes) (i := window.start + width - 1)
    (by omega)
  refine ⟨_, ?_, file, _, _, hfile, hfits, hfirst, hlast, rfl⟩
  rw [cloneOf, List.getElem?_toArray, hsource, Option.bind_eq_bind, Option.bind_some, hline, hfirst,
    hline, hlast, hshown.name]
  rfl

end Shown

/-! ## Parts -/

section Parts

theorem clash_eq_false_iff {v w : Window} : v.clash width w = false
    ↔ (v.source = w.source → overlap width v.start w.start ≤ width / 2) := by
  rw [Window.clash, Bool.and_eq_false_imp, beq_iff_eq, decide_eq_false_iff_not, Nat.not_lt]
  rfl

/-- The windows of a hash. -/
def bucketOf (width : Nat) (sources : List WindowSource) (hash : UInt64) : List Window :=
  (allWindows width sources).filter fun window => hashOf width sources window == hash

theorem withHash_entries (hwidth : 0 < width) (sources : List WindowSource) (hash : UInt64) :
    Window.withHash hash (entries width sources) = bucketOf width sources hash := by
  rw [Window.withHash, entries_eq hwidth, List.filter_map, List.map_map]
  exact List.map_id _

/-- The parts that a search makes of its buckets, each with its hash. -/
def partsOf (width : Nat) (sources : List WindowSource) : List (UInt64 × List Window) :=
  parts sources.toArray width (Window.buckets (entries width sources))

variable {hash : UInt64} {members : List Window}

theorem mem_partsOf (hwidth : 0 < width) : (hash, members) ∈ partsOf width sources
    ↔ members ∈ Window.parted (joins sources.toArray width) (bucketOf width sources hash) := by
  rw [partsOf, parts, List.mem_flatMap]
  constructor
  · rintro ⟨⟨hash', windows⟩, hbucket, hmembers⟩
    obtain ⟨part, hpart, heq⟩ := List.mem_map.mp hmembers
    obtain ⟨rfl, rfl⟩ := Prod.mk.inj heq
    rwa [(Window.mem_buckets_iff.mp hbucket).2, withHash_entries hwidth] at hpart
  · intro hmembers
    refine ⟨(hash, (bucketOf width sources hash).toArray), ?_, List.mem_map_of_mem hmembers⟩
    rw [Window.mem_buckets_iff, withHash_entries hwidth]
    refine ⟨fun hnone => ?_, rfl⟩
    rw [hnone, Window.parted] at hmembers
    exact List.not_mem_nil hmembers

/-- The parts of one bucket share it out. -/
theorem nodup_flatten_parted (width : Nat) (sources : List WindowSource) (hash : UInt64) :
    (Window.parted (joins sources.toArray width) (bucketOf width sources hash)).flatten.Nodup :=
  (Window.perm_flatten_parted _ _).nodup_iff.mpr ((nodup_allWindows width sources).filter _)

theorem mem_bucketOf_of_mem (hwidth : 0 < width) (h : (hash, members) ∈ partsOf width sources)
    (hwindow : window ∈ members) : window ∈ bucketOf width sources hash :=
  (Window.perm_flatten_parted _ _).mem_iff.mp
    (List.mem_flatten_of_mem ((mem_partsOf hwidth).mp h) hwindow)

theorem hashOf_of_mem (hwidth : 0 < width) (h : (hash, members) ∈ partsOf width sources)
    (hwindow : window ∈ members) : hashOf width sources window = hash :=
  eq_of_beq (List.mem_filter.mp (mem_bucketOf_of_mem hwidth h hwindow)).2

/-- **No window is in two parts.** -/
theorem pairwise_disjoint_partsOf (hwidth : 0 < width) (sources : List WindowSource) :
    (partsOf width sources).Pairwise fun a b => a.2.Disjoint b.2 := by
  have hhash : ∀ bucket ∈ Window.buckets (entries width sources), ∀ part ∈
      (Window.parted (joins sources.toArray width) bucket.2.toList).map fun members =>
        (bucket.1, members), ∀ window ∈ part.2, hashOf width sources window = bucket.1 := by
    intro bucket hbucket part hpart window hwindow
    obtain ⟨members, -, rfl⟩ := List.mem_map.mp hpart
    exact hashOf_of_mem hwidth (List.mem_flatMap.mpr ⟨bucket, hbucket, hpart⟩) hwindow
  refine List.pairwise_flatMap.mpr ⟨fun bucket hbucket => ?_, ?_⟩
  · rw [List.pairwise_map, (Window.mem_buckets_iff.mp hbucket).2, withHash_entries hwidth]
    exact (List.nodup_flatten.mp (nodup_flatten_parted width sources bucket.1)).2
  · refine (Window.pairwise_buckets _).imp_of_mem fun ha hb hne part hpart part' hpart' => ?_
    intro window hwindow hwindow'
    exact hne ((hhash _ ha part hpart window hwindow).symm.trans
      (hhash _ hb part' hpart' window hwindow'))

theorem nodup_of_mem_partsOf (hwidth : 0 < width) (h : (hash, members) ∈ partsOf width sources) :
    members.Nodup :=
  (List.nodup_flatten.mp (nodup_flatten_parted width sources hash)).1 members
    ((mem_partsOf hwidth).mp h)

theorem mem_allWindows_of_mem (hwidth : 0 < width) (h : (hash, members) ∈ partsOf width sources)
    (hwindow : window ∈ members) : window ∈ allWindows width sources :=
  (List.mem_filter.mp (mem_bucketOf_of_mem hwidth h hwindow)).1

/-- **Windows are alike** — all have the keys of the first, and no two clash. -/
structure Alike (width : Nat) (sources : List WindowSource) (first : Window)
    (members : List Window) : Prop where
  same : ∀ window ∈ members,
    keysOf sources.toArray width first = keysOf sources.toArray width window
  apart : members.Pairwise fun v w => v.clash width w = false

theorem alike_singleton (width : Nat) (sources : List WindowSource) (first : Window) :
    Alike width sources first [first] where
  same window hwindow := by rw [List.mem_singleton.mp hwindow]
  apart := List.pairwise_singleton _ _

theorem joins_iff {first a : Window} : joins sources.toArray width first members a = true
    ↔ keysOf sources.toArray width first = keysOf sources.toArray width a
      ∧ ∀ member ∈ members, member.clash width a = false := by
  rw [joins, Bool.and_eq_true, beq_iff_eq, Bool.not_eq_true', List.any_eq_false]
  simp only [Bool.not_eq_true]

/-- What joins windows that are alike is like them. -/
theorem Alike.concat {first a : Window} (h : Alike width sources first members)
    (hjoins : joins sources.toArray width first members a = true) :
    Alike width sources first (members ++ [a]) := by
  obtain ⟨hkeys, hclash⟩ := joins_iff.mp hjoins
  constructor
  · intro window hwindow
    rcases List.mem_append.mp hwindow with hwindow | hwindow
    · exact h.same window hwindow
    · rwa [List.mem_singleton.mp hwindow]
  · refine List.pairwise_append.mpr ⟨h.apart, List.pairwise_singleton _ _, fun v hv w hw => ?_⟩
    rw [List.mem_singleton.mp hw]
    exact hclash v hv

/-- **The windows of a part are alike.** -/
theorem exists_alike_of_mem_partsOf (hwidth : 0 < width)
    (h : (hash, members) ∈ partsOf width sources) : ∃ first, Alike width sources first members :=
  Window.exists_of_mem_parted (alike_singleton width sources)
    (fun _ _ _ halike hjoins => halike.concat hjoins) ((mem_partsOf hwidth).mp h)

end Parts

end WindowSearch

end Detect

end CodeClones
