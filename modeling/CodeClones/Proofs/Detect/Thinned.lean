import CodeClones.Proofs.Clone.Key
import CodeClones.Proofs.Detect.Run

/-!
# Proofs/Detect/Thinned — the clones of a run

A location of a region is a place where its run stands (`mem_located_iff`).  Thinning goes through
the places in a file from left to right, so which of them remain is settled file by file
(`thinned_keptWindows`, `Thinned.perm`).  Regions that carry the same run in two orders of the files
therefore report the same clones, in some order, and their groups have the same key
(`exists_group?_of_carries`).
-/

namespace CodeClones

/-- **A run shows at an offset** at which it stands, with no negative line at its ends. -/
def LexemeFile.Shows (file : LexemeFile) (run : List String) (offset : Nat) : Prop :=
  file.StandsAt run offset ∧ ∃ first last, file.lexemes[offset]? = some first
    ∧ file.lexemes[offset + run.length - 1]? = some last ∧ 0 ≤ first.line ∧ 0 ≤ last.line

/-- The clone of a window of a file. -/
def LexemeFile.cloneOf? (file : LexemeFile) (length offset : Nat) : Option Clone :=
  match file.lexemes[offset]?, file.lexemes[offset + length - 1]? with
  | some first, some last => some
    { file := file.name
      startLine := first.line
      endLine := last.line
      tokenCount := Int.ofNat length }
  | _, _ => none

namespace Detect

open Repeat TokenStream

/-! ## Thinned windows -/

/-- **Windows thinned out** — of those at which a run shows, from left to right, each that overlaps
no earlier one of the list by more than half. -/
structure Thinned (files : List LexemeFile) (run : List String)
    (windows : List (LexemeFile × Nat)) : Prop where
  nodup : windows.Nodup
  mem_iff : ∀ {file : LexemeFile} {offset : Nat}, (file, offset) ∈ windows
    ↔ file ∈ files ∧ file.Shows run offset ∧ ∀ earlier < offset, (file, earlier) ∈ windows →
      overlap run.length earlier offset * 2 ≤ run.length

variable {files files' : List LexemeFile} {least : Nat} {run : List String}

/-- **The order of the files does not matter** for what remains. -/
theorem Thinned.perm (hmem : ∀ file, file ∈ files ↔ file ∈ files')
    {windows windows' : List (LexemeFile × Nat)} (h : Thinned files run windows)
    (h' : Thinned files' run windows') : windows.Perm windows' := by
  refine (List.perm_ext_iff_of_nodup h.nodup h'.nodup).mpr ?_
  rintro ⟨file, offset⟩
  induction offset using Nat.strong_induction_on with
  | _ offset ih =>
    rw [h.mem_iff, h'.mem_iff, hmem]
    refine and_congr_right fun _ => and_congr_right fun _ => forall₂_congr fun earlier hlt => ?_
    rw [ih earlier hlt]

/-! ## Locations as windows -/

/-- **A location of a window** at which a run shows. -/
structure Locates (files : List LexemeFile) (run : List String) (file : LexemeFile) (offset : Nat)
    (x : Location) : Prop where
  file_eq : files[x.file]? = some file
  stands : file.StandsAt run offset
  start_eq : x.start = Int.ofNat (startOf files x.file + offset)
  stop_eq : x.stop = x.start + Int.ofNat run.length - 1
  ends : ∃ first last, file.lexemes[offset]? = some first
    ∧ file.lexemes[offset + run.length - 1]? = some last
    ∧ x.startLine = first.line ∧ x.endLine = last.line ∧ 0 ≤ first.line ∧ 0 ≤ last.line

/-- The window of a location. -/
def windowAt? (files : List LexemeFile) (x : Location) : Option (LexemeFile × Nat) :=
  (files[x.file]?).map fun file => (file, (windowOf files x).2)

/-- The windows of the locations of a region that remain. -/
def keptWindows (files : List LexemeFile) (region : Repeat) : List (LexemeFile × Nat) :=
  (Location.thin ((ofFiles files).located region.occurrences)).filterMap (windowAt? files)

section Locates

variable {file : LexemeFile} {offset offset' : Nat} {x y : Location}

theorem Locates.windowAt?_eq (h : Locates files run file offset x) :
    windowAt? files x = some (file, offset) := by
  rw [windowAt?, h.file_eq, Option.map_some, windowOf, h.start_eq]
  exact congrArg (fun o => some (file, o)) (Nat.add_sub_cancel_left _ _)

theorem Locates.shows (h : Locates files run file offset x) : file.Shows run offset := by
  obtain ⟨first, last, hfirst, hlast, -, -, hlines⟩ := h.ends
  exact ⟨h.stands, first, last, hfirst, hlast, hlines⟩

theorem exists_locates (hfile : file ∈ files) (h : file.Shows run offset) :
    ∃ x, Locates files run file offset x := by
  obtain ⟨f, hf⟩ := List.getElem?_of_mem hfile
  obtain ⟨hstands, first, last, hfirst, hlast, hlines⟩ := h
  exact ⟨⟨f, first.line, last.line, Int.ofNat (startOf files f + offset), _⟩, hf, hstands, rfl, rfl,
    first, last, hfirst, hlast, rfl, rfl, hlines⟩

theorem Locates.cloneOf?_eq (h : Locates files run file offset x) :
    file.cloneOf? run.length offset
      = some ((ofFiles files).cloneAt (Int.ofNat run.length) x) := by
  obtain ⟨first, last, hfirst, hlast, hstart, hend, -⟩ := h.ends
  rw [LexemeFile.cloneOf?, hfirst, hlast, cloneAt, getElem?_files, h.file_eq, hstart, hend]
  rfl

variable (hnodup : files.Nodup)

include hnodup

theorem Locates.file_inj (h : Locates files run file offset x)
    (h' : Locates files run file offset' y) : x.file = y.file :=
  (List.getElem?_inj (List.getElem?_eq_some_iff.mp h.file_eq).1 hnodup).mp
    (h.file_eq.trans h'.file_eq.symm)

/-- **A window has one location.** -/
theorem Locates.inj (h : Locates files run file offset x) (h' : Locates files run file offset y) :
    x = y := by
  obtain ⟨first, last, hfirst, hlast, hstart, hend, -⟩ := h.ends
  obtain ⟨first', last', hfirst', hlast', hstart', hend', -⟩ := h'.ends
  obtain rfl := Option.some.inj (hfirst.symm.trans hfirst')
  obtain rfl := Option.some.inj (hlast.symm.trans hlast')
  have hfile := h.file_inj hnodup h'
  have hs := h'.start_eq
  have ht := h'.stop_eq
  rw [← hfile, ← h.start_eq] at hs
  rw [hs, ← h.stop_eq] at ht
  cases x
  cases y
  simp only [Location.mk.injEq]
  exact ⟨hfile, hstart.trans hstart'.symm, hend.trans hend'.symm, hs.symm, ht.symm⟩

/-- Locations share what their windows share. -/
theorem Locates.shared_eq (h : Locates files run file offset x)
    (h' : Locates files run file offset' y) :
    x.shared y = Int.ofNat (overlap run.length offset offset') := by
  have hs := h'.start_eq
  have ht := h'.stop_eq
  rw [← h.file_inj hnodup h'] at hs
  rw [Location.shared_eq, h.stop_eq, ht, h.start_eq, hs, overlap]
  simp only [Int.ofNat_eq_natCast]
  omega

end Locates

section Region

variable {region : Repeat} (hleast : 0 < least)
  (hregion : IsRegion (ofFiles files).codes least region) (hcarries : Carries files region run)

include hleast hregion hcarries

/-- **The locations of a region** are those of the windows at which its run shows. -/
theorem mem_located_iff {x : Location} : x ∈ (ofFiles files).located region.occurrences
    ↔ ∃ file offset, Locates files run file offset x := by
  have hlength : 0 < region.length := hleast.trans_le hregion.least_le
  constructor
  · intro hx
    obtain ⟨position, hposition, hx⟩ := List.mem_filterMap.mp hx
    obtain ⟨p, hp, rfl⟩ := List.mem_map.mp hposition
    obtain ⟨f, file, o, hf, ho, rfl⟩ := exists_window_of_mem hleast hregion hp
    obtain ⟨first, last, hfirst, hlast, heq⟩ := exists_location?_eq hf hlength ho
    rw [Repeat.occurrences, heq] at hx
    split at hx
    · next hlines =>
      obtain rfl := Option.some.inj hx
      rw [← hcarries.length_eq] at hlast
      exact ⟨file, o, hf, (hcarries.standsAt_iff hf (Nat.le_of_add_right_le ho)).mpr hp, rfl,
        by rw [hcarries.length_eq], first, last, hfirst, hlast, rfl, rfl, hlines⟩
    · exact absurd hx.symm (Option.some_ne_none x)
  · rintro ⟨file, o, h⟩
    obtain ⟨first, last, hfirst, hlast, hstart, hend, hlines⟩ := h.ends
    have hfits := h.stands.1
    rw [hcarries.length_eq] at hfits hlast
    have hp := (hcarries.standsAt_iff h.file_eq (Nat.le_of_add_right_le hfits)).mp h.stands
    obtain ⟨first', last', hfirst', hlast', heq⟩ := exists_location?_eq h.file_eq hlength hfits
    obtain rfl := Option.some.inj (hfirst.symm.trans hfirst')
    obtain rfl := Option.some.inj (hlast.symm.trans hlast')
    refine List.mem_filterMap.mpr ⟨_, List.mem_map_of_mem hp, ?_⟩
    rw [Repeat.occurrences, heq, if_pos hlines, ← h.start_eq, ← hcarries.length_eq, ← h.stop_eq,
      ← hstart, ← hend]

theorem mem_keptWindows_iff {file : LexemeFile} {offset : Nat} :
    (file, offset) ∈ keptWindows files region
      ↔ ∃ x ∈ Location.thin ((ofFiles files).located region.occurrences),
        Locates files run file offset x := by
  rw [keptWindows, List.mem_filterMap]
  refine exists_congr fun x => and_congr_right fun hx => ⟨fun heq => ?_, Locates.windowAt?_eq⟩
  obtain ⟨file', offset', h⟩ :=
    (mem_located_iff hleast hregion hcarries).mp (Location.mem_of_mem_thin hx)
  rw [h.windowAt?_eq] at heq
  obtain ⟨rfl, rfl⟩ := Prod.mk.inj (Option.some.inj heq)
  exact h

/-- **The clones that remain** are those of the windows. -/
theorem map_cloneAt_eq :
    (Location.thin ((ofFiles files).located region.occurrences)).map
        ((ofFiles files).cloneAt region.occurrences.length)
      = (keptWindows files region).filterMap fun window =>
        window.1.cloneOf? run.length window.2 := by
  rw [keptWindows, List.filterMap_filterMap, ← List.filterMap_eq_map]
  refine List.filterMap_congr fun x hx => ?_
  obtain ⟨file, offset, h⟩ :=
    (mem_located_iff hleast hregion hcarries).mp (Location.mem_of_mem_thin hx)
  rw [h.windowAt?_eq, Option.bind_some, h.cloneOf?_eq, hcarries.length_eq]
  rfl

/-- **Every clone of a region** is that of a place where its run stands. -/
theorem exists_stands_of_mem_clones {kind : CloneKind} {group : CloneGroup Float}
    (hgroup : (ofFiles files).group? kind region.occurrences = some group) {clone : Clone}
    (hclone : clone ∈ group.clones) :
    ∃ file ∈ files, ∃ offset, file.StandsAt run offset
      ∧ file.cloneOf? run.length offset = some clone := by
  rw [(group?_eq_some hgroup).2.1] at hclone
  obtain ⟨x, hx, rfl⟩ := List.mem_map.mp hclone
  obtain ⟨file, offset, h⟩ :=
    (mem_located_iff hleast hregion hcarries).mp (Location.mem_of_mem_thin hx)
  refine ⟨file, List.mem_of_getElem? h.file_eq, offset, h.stands, ?_⟩
  rw [h.cloneOf?_eq, hcarries.length_eq]
  rfl

variable (hnodup : files.Nodup)

include hnodup

theorem nodup_keptWindows : (keptWindows files region).Nodup := by
  have hlocated : ∀ {x}, x ∈ Location.thin ((ofFiles files).located region.occurrences) →
      ∃ file offset, Locates files run file offset x := fun hx =>
    (mem_located_iff hleast hregion hcarries).mp (Location.mem_of_mem_thin hx)
  refine List.pairwise_filterMap.mpr ((Location.nodup_thin (nodup_located hregion)).imp_of_mem ?_)
  rintro x y hx hy hne window hwindow _ hwindow' rfl
  obtain ⟨file, offset, h⟩ := hlocated hx
  obtain ⟨file', offset', h'⟩ := hlocated hy
  have heq := h.windowAt?_eq.symm.trans (hwindow.trans (hwindow'.symm.trans h'.windowAt?_eq))
  obtain ⟨rfl, rfl⟩ := Prod.mk.inj (Option.some.inj heq)
  exact hne (h.inj hnodup h')

/-- **Windows that remain overlap by half at most.** -/
theorem overlap_le_of_mem_keptWindows {file : LexemeFile} {earlier offset : Nat}
    (hlt : earlier < offset) (hearlier : (file, earlier) ∈ keptWindows files region)
    (h : (file, offset) ∈ keptWindows files region) :
    overlap run.length earlier offset * 2 ≤ run.length := by
  obtain ⟨x, hx, h⟩ := (mem_keptWindows_iff hleast hregion hcarries).mp h
  obtain ⟨y, hy, h'⟩ := (mem_keptWindows_iff hleast hregion hcarries).mp hearlier
  have hne : y ≠ x := by
    rintro rfl
    have heq := h'.windowAt?_eq.symm.trans h.windowAt?_eq
    exact Nat.ne_of_lt hlt (Prod.mk.inj (Option.some.inj heq)).2
  have hshared := shared_of_mem_thin hleast hregion hy hx hne (h'.file_inj hnodup h)
  rw [h'.shared_eq hnodup h, ← hcarries.length_eq] at hshared
  exact Int.ofNat_le.mp hshared

/-- **A window that does not remain** is overlapped by an earlier one that does. -/
theorem mem_keptWindows_or_overlapped {file : LexemeFile} {offset : Nat} (hfile : file ∈ files)
    (hshows : file.Shows run offset) : (file, offset) ∈ keptWindows files region
      ∨ ∃ earlier < offset, (file, earlier) ∈ keptWindows files region
        ∧ run.length < overlap run.length earlier offset * 2 := by
  have hkept : ∀ {file offset}, (file, offset) ∈ keptWindows files region ↔ _ :=
    mem_keptWindows_iff hleast hregion hcarries
  obtain ⟨x, h⟩ := exists_locates hfile hshows
  have hx := (mem_located_iff hleast hregion hcarries).mpr ⟨file, offset, h⟩
  obtain ⟨-, -, hdrop⟩ := Location.thin_spec ((ofFiles files).located region.occurrences)
    fun x hx => (span_of_mem_located hleast hregion hx).1
  rcases hdrop x hx with hthin | ⟨y, hy, hyfile, hstart, hcrowds⟩
  · exact Or.inl (hkept.mpr ⟨x, hthin, h⟩)
  · obtain ⟨file', earlier, h'⟩ :=
      (mem_located_iff hleast hregion hcarries).mp (Location.mem_of_mem_thin hy)
    obtain rfl : file' = file :=
      Option.some.inj (h'.file_eq.symm.trans (hyfile ▸ h.file_eq))
    rw [h'.start_eq, h.start_eq, hyfile, Int.ofNat_eq_natCast, Int.ofNat_eq_natCast] at hstart
    rcases Nat.lt_or_eq_of_le (show earlier ≤ offset by omega) with hlt | rfl
    · rw [Location.crowds_iff, (span_of_mem_located hleast hregion hx).2,
        h'.shared_eq hnodup h, ← hcarries.length_eq] at hcrowds
      refine Or.inr ⟨earlier, hlt, hkept.mpr ⟨y, hy, h'⟩, ?_⟩
      simp only [Int.ofNat_eq_natCast] at hcrowds
      omega
    · exact Or.inl (hkept.mpr ⟨y, hy, h'⟩)

/-- **The windows that remain are thinned out.** -/
theorem thinned_keptWindows : Thinned files run (keptWindows files region) where
  nodup := nodup_keptWindows hleast hregion hcarries hnodup
  mem_iff {file offset} := by
    constructor
    · intro hmem
      obtain ⟨x, -, h⟩ := (mem_keptWindows_iff hleast hregion hcarries).mp hmem
      exact ⟨List.mem_of_getElem? h.file_eq, h.shows, fun earlier hlt hearlier =>
        overlap_le_of_mem_keptWindows hleast hregion hcarries hnodup hlt hearlier hmem⟩
    · rintro ⟨hfile, hshows, hapart⟩
      refine (mem_keptWindows_or_overlapped hleast hregion hcarries hnodup hfile
        hshows).resolve_right ?_
      rintro ⟨earlier, hlt, hearlier, hover⟩
      exact absurd (hapart earlier hlt hearlier) (Nat.not_le.mpr hover)

end Region

/-! ## Groups of one run -/

section Groups

variable {region region' : Repeat} (hleast : 0 < least)
  (hmem : ∀ file, file ∈ files ↔ file ∈ files') (hnodup : files.Nodup) (hnodup' : files'.Nodup)
  (hregion : IsRegion (ofFiles files).codes least region) (hcarries : Carries files region run)
  (hregion' : IsRegion (ofFiles files').codes least region')
  (hcarries' : Carries files' region' run)

include hleast hmem hnodup hnodup' hregion hcarries hregion' hcarries'

/-- **Regions that carry one run report the same clones**, in some order. -/
theorem perm_map_cloneAt :
    ((Location.thin ((ofFiles files).located region.occurrences)).map
        ((ofFiles files).cloneAt region.occurrences.length)).Perm
      ((Location.thin ((ofFiles files').located region'.occurrences)).map
        ((ofFiles files').cloneAt region'.occurrences.length)) := by
  rw [map_cloneAt_eq hleast hregion hcarries, map_cloneAt_eq hleast hregion' hcarries']
  exact ((thinned_keptWindows hleast hregion hcarries hnodup).perm hmem
    (thinned_keptWindows hleast hregion' hcarries' hnodup')).filterMap _

/-- **Groups of one run have one key**, and if one order of the files has the group the other one
has it. -/
theorem exists_group?_of_carries {kind : CloneKind} {group : CloneGroup Float}
    (hgroup : (ofFiles files).group? kind region.occurrences = some group) :
    ∃ group', (ofFiles files').group? kind region'.occurrences = some group'
      ∧ group'.key = group.key := by
  have hperm := perm_map_cloneAt hleast hmem hnodup hnodup' hregion hcarries hregion' hcarries'
  obtain ⟨htwo, hclones, -⟩ := group?_eq_some hgroup
  have hlength := hperm.length_eq
  rw [List.length_map, List.length_map] at hlength
  obtain ⟨group', hgroup'⟩ : ∃ group',
      (ofFiles files').group? kind region'.occurrences = some group' :=
    exists_group?_of_two_le (hlength ▸ htwo)
  obtain ⟨-, hclones', -⟩ := group?_eq_some hgroup'
  exact ⟨group', hgroup', key_eq_of_perm (hclones' ▸ hclones ▸ hperm.symm)⟩

end Groups

end Detect

end CodeClones
