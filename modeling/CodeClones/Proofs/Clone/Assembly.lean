import CodeClones.Clone.Assembly
import CodeClones.Proofs.Clone.Location
import CodeClones.Proofs.Token.Stream

/-!
# Proofs/Clone/Assembly — the group of a region

Every position of a region starts a window within a file, and its location is that window
(`location?_eq`).  So the group of a region lists windows with the same keys
(`exists_repeats_of_group?`), and a region has no group only if its windows crowd each other in one
file (`crowded_of_group?_eq_none`).
-/

namespace CodeClones

open Repeat TokenStream

/-! ## Groups of windows -/

/-- **A group repeats a window** — one clone for each of at least two distinct windows, all with the
same keys, and no two of one file overlapping by more than half. -/
structure Repeats (files : List LexemeFile) (least length : Nat) (windows : List (Nat × Nat))
    (group : CloneGroup Float) : Prop where
  least_le : least ≤ length
  two_le : 2 ≤ windows.length
  nodup : windows.Nodup
  clones : List.Forall₂ (IsCloneAt files length) windows group.clones
  same : ∀ v ∈ windows, ∀ w ∈ windows, ∀ file file' : LexemeFile, files[v.1]? = some file →
    files[w.1]? = some file' → file.keys v.2 length = file'.keys w.2 length
  apart : ∀ v ∈ windows, ∀ w ∈ windows, v ≠ w → v.1 = w.1 → overlap length v.2 w.2 * 2 ≤ length
  similarity : group.similarity = 1

/-! ## Locations of windows -/

section Locations

variable {files : List LexemeFile} {file : LexemeFile} {f o length : Nat}

/-- **The location of a window** — it has one unless a line at its ends is negative. -/
theorem location?_eq {first last : Lexeme} (hf : files[f]? = some file) (hlength : 0 < length)
    (hfirst : file.lexemes[o]? = some first) (hlast : file.lexemes[o + length - 1]? = some last) :
    (ofFiles files).location? (Int.ofNat (startOf files f + o)) (Int.ofNat length)
      = if 0 ≤ first.line ∧ 0 ≤ last.line then
          some ⟨f, first.line, last.line, Int.ofNat (startOf files f + o),
            Int.ofNat (startOf files f + o) + Int.ofNat length - 1⟩
        else none := by
  have hstop : (Int.ofNat (startOf files f + o) + Int.ofNat length - 1).toNat
      = startOf files f + (o + length - 1) := by
    simp only [Int.ofNat_eq_natCast]
    omega
  rw [location?, if_neg (by simp only [Int.ofNat_eq_natCast]; omega), hstop,
    show (Int.ofNat (startOf files f + o)).toNat = startOf files f + o from rfl,
    place_of_token hf hfirst, place_of_token hf hlast]
  simp only [true_and]

/-- A window that is not empty has a first and a last token, and these decide on its location. -/
theorem exists_location?_eq (hf : files[f]? = some file) (hlength : 0 < length)
    (ho : o + length ≤ file.lexemes.length) :
    ∃ first last, file.lexemes[o]? = some first ∧ file.lexemes[o + length - 1]? = some last
      ∧ (ofFiles files).location? (Int.ofNat (startOf files f + o)) (Int.ofNat length)
        = if 0 ≤ first.line ∧ 0 ≤ last.line then
            some ⟨f, first.line, last.line, Int.ofNat (startOf files f + o),
              Int.ofNat (startOf files f + o) + Int.ofNat length - 1⟩
          else none := by
  have hfirst := List.getElem?_eq_getElem (l := file.lexemes) (i := o) (by omega)
  have hlast := List.getElem?_eq_getElem (l := file.lexemes) (i := o + length - 1) (by omega)
  exact ⟨_, _, hfirst, hlast, location?_eq hf hlength hfirst hlast⟩

theorem start_of_location? {stream : TokenStream} {position length : Int} {x : Location}
    (h : stream.location? position length = some x) : x.start = position := by
  rw [location?] at h
  split at h
  · exact absurd h nofun
  · split at h
    · split at h
      · rw [← Option.some.inj h]
      · exact absurd h nofun
    · exact absurd h nofun

theorem getElem?_files (files : List LexemeFile) (f : Nat) :
    (ofFiles files).files[f]? = (files[f]?).map LexemeFile.name := by
  rw [ofFiles, List.getElem?_toArray, List.getElem?_map]

/-- The locations of some occurrences. -/
def TokenStream.located (stream : TokenStream) (found : Occurrences) : List Location :=
  found.positions.filterMap fun position => stream.location? position found.length

/-- **A group needs two locations that remain.** -/
theorem group?_eq (stream : TokenStream) (kind : CloneKind) (found : Occurrences) :
    ∃ fingerprint, stream.group? kind found
      = if (Location.thin (stream.located found)).length < 2 then none
        else some
          { kind := kind
            clones := (Location.thin (stream.located found)).map (stream.cloneAt found.length)
            similarity := 1
            fingerprint := fingerprint } := by
  have hle := (Location.thinFrom_sublist ∅ ((stream.located found).mergeSort Location.le)).length_le
  rw [List.length_mergeSort, ← Location.thin] at hle
  rcases hlocated : stream.located found with - | ⟨first, - | ⟨second, rest⟩⟩
  · rw [hlocated] at hle
    refine ⟨"", ?_⟩
    rw [if_pos (by rw [List.length_nil] at hle; omega), group?]
    rw [located] at hlocated
    rw [hlocated]
  · rw [hlocated] at hle
    refine ⟨"", ?_⟩
    rw [if_pos (by rw [List.length_singleton] at hle; omega), group?]
    rw [located] at hlocated
    rw [hlocated]
  · refine ⟨stream.fingerprint first.start found.length, ?_⟩
    rw [group?]
    rw [located] at hlocated
    rw [hlocated]

theorem group?_eq_some {stream : TokenStream} {kind : CloneKind} {found : Occurrences}
    {group : CloneGroup Float} (h : stream.group? kind found = some group) :
    2 ≤ (Location.thin (stream.located found)).length
      ∧ group.clones = (Location.thin (stream.located found)).map (stream.cloneAt found.length)
      ∧ group.similarity = 1 ∧ group.kind = kind := by
  obtain ⟨fingerprint, heq⟩ := group?_eq stream kind found
  rw [heq] at h
  split at h
  · exact absurd h nofun
  · next hlength =>
    obtain rfl := Option.some.inj h
    exact ⟨by omega, rfl, rfl, rfl⟩

theorem exists_group?_of_two_le {stream : TokenStream} {kind : CloneKind} {found : Occurrences}
    (h : 2 ≤ (Location.thin (stream.located found)).length) :
    ∃ group, stream.group? kind found = some group := by
  obtain ⟨fingerprint, heq⟩ := group?_eq stream kind found
  exact ⟨_, by rw [heq, if_neg (by omega)]⟩

end Locations

/-! ## Locations of a region -/

theorem Repeat.IsRegion.exists_ne {text : Array Int} {least : Nat} {region : Repeat}
    (h : IsRegion text least region) (p : Nat) : ∃ q ∈ region.positions, q ≠ p :=
  exists_ne_of_two_le h.ascending h.two_le p

section Region

variable {files : List LexemeFile} {least : Nat} {region : Repeat}
  (hleast : 0 < least) (hregion : IsRegion (ofFiles files).codes least region)

include hleast hregion

/-- **A position of a region starts a window within a file.** -/
theorem exists_window_of_mem {p : Nat} (hp : p ∈ region.positions) :
    ∃ f file o, files[f]? = some file ∧ o + region.length ≤ file.lexemes.length
      ∧ p = startOf files f + o := by
  obtain ⟨q, hq, hne⟩ := hregion.exists_ne p
  exact exists_window_of_shared hne.symm (hleast.trans_le hregion.least_le)
    (hregion.shared p hp q hq)

/-- The window lies within the file in which it starts. -/
theorem le_length_of_mem {f o : Nat} {file : LexemeFile} (hf : files[f]? = some file)
    (ho : o ≤ file.lexemes.length) (hp : startOf files f + o ∈ region.positions) :
    o + region.length ≤ file.lexemes.length := by
  obtain ⟨f', file', o', hf', ho', heq⟩ := exists_window_of_mem hleast hregion hp
  obtain ⟨rfl, rfl⟩ := position_inj hf ho hf' (Nat.le_of_add_right_le ho') heq
  obtain rfl := Option.some.inj (hf.symm.trans hf')
  exact ho'

/-- **A location of a region** — its file, the lines of its first and last token, and where it
is. -/
theorem exists_of_mem_located {x : Location}
    (hx : x ∈ (ofFiles files).located region.occurrences) :
    ∃ f file o first last, files[f]? = some file ∧ o + region.length ≤ file.lexemes.length
      ∧ startOf files f + o ∈ region.positions
      ∧ file.lexemes[o]? = some first ∧ file.lexemes[o + region.length - 1]? = some last
      ∧ x = ⟨f, first.line, last.line, Int.ofNat (startOf files f + o),
          Int.ofNat (startOf files f + o) + Int.ofNat region.length - 1⟩ := by
  obtain ⟨position, hposition, hlocation⟩ := List.mem_filterMap.mp hx
  obtain ⟨p, hp, rfl⟩ := List.mem_map.mp hposition
  obtain ⟨f, file, o, hf, ho, rfl⟩ := exists_window_of_mem hleast hregion hp
  obtain ⟨first, last, hfirst, hlast, heq⟩ :=
    exists_location?_eq hf (hleast.trans_le hregion.least_le) ho
  rw [Repeat.occurrences, heq] at hlocation
  split at hlocation
  · exact ⟨f, file, o, _, _, hf, ho, hp, hfirst, hlast, (Option.some.inj hlocation).symm⟩
  · exact absurd hlocation nofun

omit hleast in
theorem nodup_located : ((ofFiles files).located region.occurrences).Nodup := by
  have hnodup : region.positions.Nodup := hregion.ascending.imp ne_of_lt
  refine (hnodup.map (f := Int.ofNat) fun _ _ => Int.ofNat.inj).filterMap ?_
  intro p q x hp hq
  rw [← start_of_location? hp, start_of_location? hq]

theorem span_of_mem_located {x : Location}
    (hx : x ∈ (ofFiles files).located region.occurrences) :
    x.start ≤ x.stop ∧ x.extent = Int.ofNat region.length := by
  have hlength := hleast.trans_le hregion.least_le
  obtain ⟨f, file, o, first, last, -, -, -, -, -, rfl⟩ := exists_of_mem_located hleast hregion hx
  rw [Location.extent]
  simp only [Int.ofNat_eq_natCast]
  omega

omit hleast hregion in
/-- The window of a location. -/
def windowOf (files : List LexemeFile) (x : Location) : Nat × Nat :=
  (x.file, x.start.toNat - startOf files x.file)

omit hleast hregion in
theorem windowOf_eq {f o : Nat} {startLine endLine stop : Int} :
    windowOf files ⟨f, startLine, endLine, Int.ofNat (startOf files f + o), stop⟩ = (f, o) := by
  rw [windowOf]
  exact Prod.ext rfl (Nat.add_sub_cancel_left _ _)

theorem windowOf_inj {x y : Location} (hx : x ∈ (ofFiles files).located region.occurrences)
    (hy : y ∈ (ofFiles files).located region.occurrences)
    (h : windowOf files x = windowOf files y) : x = y := by
  obtain ⟨f, file, o, first, last, hf, -, -, hfirst, hlast, rfl⟩ :=
    exists_of_mem_located hleast hregion hx
  obtain ⟨f', file', o', first', last', hf', -, -, hfirst', hlast', rfl⟩ :=
    exists_of_mem_located hleast hregion hy
  rw [windowOf_eq, windowOf_eq] at h
  obtain ⟨rfl, rfl⟩ := Prod.mk.inj h
  obtain rfl := Option.some.inj (hf.symm.trans hf')
  obtain rfl := Option.some.inj (hfirst.symm.trans hfirst')
  obtain rfl := Option.some.inj (hlast.symm.trans hlast')
  rfl

/-- **Locations that remain overlap by at most half.** -/
theorem shared_of_mem_thin {x y : Location}
    (hx : x ∈ Location.thin ((ofFiles files).located region.occurrences))
    (hy : y ∈ Location.thin ((ofFiles files).located region.occurrences)) (hne : x ≠ y)
    (hfile : x.file = y.file) : x.shared y * 2 ≤ Int.ofNat region.length := by
  obtain ⟨-, hpairs, -⟩ := Location.thin_spec
    ((ofFiles files).located region.occurrences)
    fun x hx => (span_of_mem_located hleast hregion hx).1
  have hshared : (Location.thin ((ofFiles files).located region.occurrences)).Pairwise
      fun a b => a.file = b.file → a.shared b * 2 ≤ Int.ofNat region.length := by
    refine hpairs.imp_of_mem fun {a b} _ hb h hfile => ?_
    have := Location.crowds_eq_false_iff.mp (h hfile)
    rwa [(span_of_mem_located hleast hregion (Location.mem_of_mem_thin hb)).2] at this
  have hsymm : Std.Symm fun a b : Location =>
      a.file = b.file → a.shared b * 2 ≤ Int.ofNat region.length :=
    ⟨fun a b h hfile => by
      rw [Location.shared_comm]
      exact h hfile.symm⟩
  exact hshared.forall hx hy hne hfile

/-- **The windows of a region's locations have the same keys.** -/
theorem keys_windowOf_eq {x y : Location} (hx : x ∈ (ofFiles files).located region.occurrences)
    (hy : y ∈ (ofFiles files).located region.occurrences) {file file' : LexemeFile}
    (hfile : files[(windowOf files x).1]? = some file)
    (hfile' : files[(windowOf files y).1]? = some file') :
    file.keys (windowOf files x).2 region.length
      = file'.keys (windowOf files y).2 region.length := by
  obtain ⟨f, _, o, first, last, hf, ho, hp, -, -, rfl⟩ := exists_of_mem_located hleast hregion hx
  obtain ⟨f', _, o', first', last', hf', ho', hp', -, -, rfl⟩ :=
    exists_of_mem_located hleast hregion hy
  rw [windowOf_eq] at hfile hfile' ⊢
  rw [windowOf_eq]
  obtain rfl := Option.some.inj (hf.symm.trans hfile)
  obtain rfl := Option.some.inj (hf'.symm.trans hfile')
  exact (le_sharedAt_iff hf ho hf' ho').mp (hregion.shared _ hp _ hp')

/-- **The windows of locations that remain overlap by at most half.** -/
theorem overlap_windowOf_le {x y : Location}
    (hx : x ∈ Location.thin ((ofFiles files).located region.occurrences))
    (hy : y ∈ Location.thin ((ofFiles files).located region.occurrences)) (hne : x ≠ y)
    (hfile : (windowOf files x).1 = (windowOf files y).1) :
    overlap region.length (windowOf files x).2 (windowOf files y).2 * 2 ≤ region.length := by
  have hshared := shared_of_mem_thin hleast hregion hx hy hne hfile
  obtain ⟨f, _, o, first, last, -, -, -, -, -, rfl⟩ :=
    exists_of_mem_located hleast hregion (Location.mem_of_mem_thin hx)
  obtain ⟨f', _, o', first', last', -, -, -, -, -, rfl⟩ :=
    exists_of_mem_located hleast hregion (Location.mem_of_mem_thin hy)
  rw [windowOf_eq, windowOf_eq] at hfile
  dsimp only at hfile
  subst hfile
  rw [Location.shared_eq] at hshared
  rw [windowOf_eq, windowOf_eq, overlap]
  simp only [Int.ofNat_eq_natCast] at hshared
  omega

/-- **The group of a region repeats a window.** -/
theorem exists_repeats_of_group? {kind : CloneKind} {group : CloneGroup Float}
    (h : (ofFiles files).group? kind region.occurrences = some group) :
    ∃ windows, Repeats files least region.length windows group := by
  obtain ⟨htwo, hclones, hsimilarity, -⟩ := group?_eq_some h
  have hmem : ∀ x ∈ Location.thin ((ofFiles files).located region.occurrences),
      x ∈ (ofFiles files).located region.occurrences := fun x => Location.mem_of_mem_thin
  refine ⟨(Location.thin ((ofFiles files).located region.occurrences)).map (windowOf files),
    hregion.least_le, by rwa [List.length_map], ?_, ?_, ?_, ?_, hsimilarity⟩
  · exact (Location.nodup_thin (nodup_located hregion)).map_on fun x hx y hy =>
      windowOf_inj hleast hregion (hmem x hx) (hmem y hy)
  · rw [hclones, List.forall₂_map_left_iff, List.forall₂_map_right_iff, List.forall₂_same]
    intro x hx
    obtain ⟨f, file, o, first, last, hf, ho, -, hfirst, hlast, rfl⟩ :=
      exists_of_mem_located hleast hregion (hmem x hx)
    rw [windowOf_eq]
    refine ⟨file, first, last, hf, ho, hfirst, hlast, ?_⟩
    rw [cloneAt, getElem?_files, hf, Option.map_some, Option.getD_some]
    rfl
  · intro v hv w hw file file' hfile hfile'
    obtain ⟨x, hx, rfl⟩ := List.mem_map.mp hv
    obtain ⟨y, hy, rfl⟩ := List.mem_map.mp hw
    exact keys_windowOf_eq hleast hregion (hmem x hx) (hmem y hy) hfile hfile'
  · intro v hv w hw hne hfile
    obtain ⟨x, hx, rfl⟩ := List.mem_map.mp hv
    obtain ⟨y, hy, rfl⟩ := List.mem_map.mp hw
    exact overlap_windowOf_le hleast hregion hx hy (fun heq => hne (heq ▸ rfl)) hfile

/-! ## Regions without a group -/

variable (hlines : ∀ file ∈ files, ∀ lexeme ∈ file.lexemes, 0 ≤ lexeme.line)

include hlines

/-- Where no line is negative every window of a region has its location. -/
theorem exists_mem_located {f o : Nat} {file : LexemeFile} (hf : files[f]? = some file)
    (hp : startOf files f + o ∈ region.positions) (ho : o + region.length ≤ file.lexemes.length) :
    ∃ x ∈ (ofFiles files).located region.occurrences,
      x.file = f ∧ x.start = Int.ofNat (startOf files f + o) := by
  obtain ⟨first, last, hfirst, hlast, hlocation⟩ :=
    exists_location?_eq hf (hleast.trans_le hregion.least_le) ho
  have hfile := List.mem_of_getElem? hf
  rw [if_pos ⟨hlines file hfile _ (List.mem_of_getElem? hfirst),
    hlines file hfile _ (List.mem_of_getElem? hlast)⟩] at hlocation
  exact ⟨_, List.mem_filterMap.mpr ⟨_, List.mem_map_of_mem hp, hlocation⟩, rfl, rfl⟩

omit hlines in
/-- Of the locations of a region one remains after thinning, if there are any. -/
theorem exists_mem_thin {x : Location} (hx : x ∈ (ofFiles files).located region.occurrences) :
    ∃ y ∈ Location.thin ((ofFiles files).located region.occurrences), y.file = x.file := by
  obtain ⟨-, -, hdrop⟩ := Location.thin_spec ((ofFiles files).located region.occurrences)
    fun x hx => (span_of_mem_located hleast hregion hx).1
  rcases hdrop x hx with hkept | ⟨y, hy, hyx, -⟩
  · exact ⟨x, hkept, rfl⟩
  · exact ⟨y, hy, hyx⟩

/-- **A group has a clone in every file in which its region occurs.** -/
theorem exists_clone_of_group? {kind : CloneKind} {group : CloneGroup Float}
    (h : (ofFiles files).group? kind region.occurrences = some group) {f o : Nat}
    {file : LexemeFile} (hf : files[f]? = some file)
    (hp : startOf files f + o ∈ region.positions) (ho : o + region.length ≤ file.lexemes.length) :
    ∃ clone ∈ group.clones, clone.file = file.name := by
  obtain ⟨x, hx, rfl, -⟩ := exists_mem_located hleast hregion hlines hf hp ho
  obtain ⟨y, hy, hyfile⟩ := exists_mem_thin hleast hregion hx
  refine ⟨_, (group?_eq_some h).2.1 ▸ List.mem_map_of_mem hy, ?_⟩
  rw [cloneAt, getElem?_files, hyfile, hf]
  rfl

omit hlines in
/-- A location that alone remains crowds every other one. -/
theorem crowds_of_thin_eq_singleton {b : Location}
    (hb : Location.thin ((ofFiles files).located region.occurrences) = [b]) {y : Location}
    (hy : y ∈ (ofFiles files).located region.occurrences) :
    b.file = y.file ∧ b.start ≤ y.start ∧ Int.ofNat region.length < b.shared y * 2 := by
  have hlength := hleast.trans_le hregion.least_le
  obtain ⟨-, -, hdrop⟩ := Location.thin_spec ((ofFiles files).located region.occurrences)
    fun x hx => (span_of_mem_located hleast hregion hx).1
  obtain ⟨hspan, hextent⟩ := span_of_mem_located hleast hregion hy
  rcases hdrop y hy with hkept | ⟨c, hc, hfile, hstart, hcrowds⟩
  · rw [hb, List.mem_singleton] at hkept
    subst hkept
    rw [Location.shared_eq]
    rw [Location.extent] at hextent
    refine ⟨rfl, Int.le_refl _, ?_⟩
    rw [Int.ofNat_eq_natCast] at hextent ⊢
    omega
  · rw [hb, List.mem_singleton] at hc
    subst hc
    exact ⟨hfile, hstart, hextent ▸ Location.crowds_iff.mp hcrowds⟩

/-- Without a group one location of a region remains. -/
theorem exists_thin_eq_singleton {kind : CloneKind}
    (h : (ofFiles files).group? kind region.occurrences = none) :
    ∃ b, Location.thin ((ofFiles files).located region.occurrences) = [b] := by
  have hfew : (Location.thin ((ofFiles files).located region.occurrences)).length < 2 := by
    by_contra hmany
    obtain ⟨group, hgroup⟩ := exists_group?_of_two_le (Nat.le_of_not_lt hmany)
    rw [h] at hgroup
    exact absurd hgroup nofun
  obtain ⟨p, hp, -⟩ := hregion.exists_ne 0
  obtain ⟨f, file, o, hf, ho, rfl⟩ := exists_window_of_mem hleast hregion hp
  obtain ⟨x, hx, -, -⟩ := exists_mem_located hleast hregion hlines hf hp ho
  obtain ⟨a, ha, -⟩ := exists_mem_thin hleast hregion hx
  exact List.length_eq_one_iff.mp
    (Nat.le_antisymm (Nat.le_of_lt_succ hfew) (List.length_pos_of_mem ha))

/-- **A region without a group is crowded** — all its windows lie in one file and overlap the first
one by more than half. -/
theorem crowded_of_group?_eq_none {kind : CloneKind}
    (h : (ofFiles files).group? kind region.occurrences = none) :
    ∃ f file first, files[f]? = some file ∧ first + region.length ≤ file.lexemes.length
      ∧ startOf files f + first ∈ region.positions
      ∧ ∀ g o file, files[g]? = some file → startOf files g + o ∈ region.positions →
        o + region.length ≤ file.lexemes.length →
        g = f ∧ first ≤ o ∧ region.length < overlap region.length first o * 2 := by
  obtain ⟨b, hb⟩ := exists_thin_eq_singleton hleast hregion hlines h
  have hbmem := Location.mem_of_mem_thin (hb.symm ▸ List.mem_singleton_self b)
  obtain ⟨f, file, first, _, _, hf, hfirst, hpfirst, -, -, rfl⟩ :=
    exists_of_mem_located hleast hregion hbmem
  refine ⟨f, file, first, hf, hfirst, hpfirst, fun g o gfile hg hp ho => ?_⟩
  obtain ⟨y, hy, hyfile, hystart⟩ := exists_mem_located hleast hregion hlines hg hp ho
  obtain ⟨hfile, hstart, hshared⟩ := crowds_of_thin_eq_singleton hleast hregion hb hy
  obtain ⟨-, hextent⟩ := span_of_mem_located hleast hregion hy
  dsimp only at hfile hstart
  rw [Location.shared_eq] at hshared
  rw [Location.extent] at hextent
  rw [hyfile] at hfile
  subst hfile
  rw [hystart, Int.ofNat_eq_natCast] at hextent hshared hstart
  simp only [Int.ofNat_eq_natCast] at hextent hshared hstart
  rw [overlap]
  omega

end Region

end CodeClones
