import CodeClones.Proofs.Clone.Group
import CodeClones.Proofs.Detect.Source
import CodeClones.Proofs.Similarity.Rational

/-!
# Proofs/Detect/Windowed — soundness of the detection by windows

Whatever shares a bucket, a part has only windows of equal keys that do not crowd each other, so its
group is one of equal windows (`equalWindows_of_group?`).  Near groups are graded by the mean over
their pairs; in rational numbers that is the average similarity of two different windows
(`mean_eq_averageSimilarity`).  No two of the groups found share a window (`exists_parts`), and no
two of those returned a key (`returns_windowedIn`).
-/

namespace CodeClones.Detect

open Log

/-! ## Groups of equal windows -/

/-- **A group of equal windows** — one clone for each of at least two distinct windows at which one
run of keys occurs, any two of one file overlapping by half the width at most. -/
structure EqualWindows {S : Type} (files : List LexemeFile) (width : Nat)
    (windows : List (Nat × Nat)) (group : CloneGroup S) : Prop where
  two_le : 2 ≤ windows.length
  nodup : windows.Nodup
  clones : List.Forall₂ (IsCloneAt files width) windows group.clones
  same : ∃ run, run.length = width ∧ ∀ window ∈ windows, Occurs files run window
  apart : ∀ v ∈ windows, ∀ w ∈ windows, v ≠ w → v.1 = w.1 → overlap width v.2 w.2 ≤ width / 2

/-- **What a search returns** — the groups found are of equal windows and duly graded, no two of
them having a window in common; one group is returned for each key. -/
structure Returns {S : Type} (files : List LexemeFile) (width : Nat)
    (graded : List (Nat × Nat) → CloneGroup S → Prop) (found returned : List (CloneGroup S)) :
    Prop where
  genuine : ∃ parts, List.Forall₂ (fun windows group =>
    EqualWindows files width windows group ∧ graded windows group) parts found
      ∧ parts.Pairwise List.Disjoint
  returned_eq : returned = distinctGroups found
  sound : ∀ group ∈ returned, ∃ windows,
    EqualWindows files width windows group ∧ graded windows group
  keys : returned.Pairwise fun a b => a.key ≠ b.key

/-- A grade may be read in another way, as long as the windows are equal. -/
theorem Returns.imp {S : Type} {files : List LexemeFile} {width : Nat}
    {graded graded' : List (Nat × Nat) → CloneGroup S → Prop}
    {found returned : List (CloneGroup S)} (h : Returns files width graded found returned)
    (himp : ∀ windows group, EqualWindows files width windows group → graded windows group →
      graded' windows group) : Returns files width graded' found returned := by
  obtain ⟨parts, hparts, hdisjoint⟩ := h.genuine
  refine ⟨⟨parts, hparts.imp fun windows group hg => ⟨hg.1, himp _ _ hg.1 hg.2⟩, hdisjoint⟩,
    h.returned_eq, fun group hgroup => ?_, h.keys⟩
  obtain ⟨windows, hequal, hgraded⟩ := h.sound group hgroup
  exact ⟨windows, hequal, himp _ _ hequal hgraded⟩

/-- The distinct texts of a window as written. -/
def textsAt (files : List LexemeFile) (width : Nat) (window : Nat × Nat) : Finset String :=
  match files[window.1]? with
  | some file => (((file.lexemes.map Lexeme.shown).drop window.2).take width).toFinset
  | none => ∅

/-- **Jaccard similarity of the texts of two windows** — what they share out of what either has. -/
def textOverlap (files : List LexemeFile) (width : Nat) (pair : (Nat × Nat) × (Nat × Nat)) :
    Overlap where
  shared := (textsAt files width pair.1 ∩ textsAt files width pair.2).card
  total := (textsAt files width pair.1 ∪ textsAt files width pair.2).card

/-- **The average similarity** of two different windows. -/
def averageSimilarity (files : List LexemeFile) (width : Nat) (windows : List (Nat × Nat)) : ℚ :=
  (∑ pair ∈ windows.toFinset.offDiag,
      ((textOverlap files width pair).shared / (textOverlap files width pair).total : ℚ))
    / windows.toFinset.offDiag.card

theorem mean_eq_averageSimilarity (files : List LexemeFile) (width : Nat)
    {windows : List (Nat × Nat)} (h : windows.Nodup) :
    (Overlap.mean ((Window.pairs windows).map (textOverlap files width)) : ℚ)
      = averageSimilarity files width windows := by
  have hsymm : ∀ v w, textOverlap files width (v, w) = textOverlap files width (w, v) := by
    intro v w
    rw [textOverlap, textOverlap, Finset.inter_comm, Finset.union_comm]
  have hsum := Window.sum_offDiag (f := fun pair => (textOverlap files width pair).score)
    (fun v w => by rw [hsymm]) h
  have hcard := Window.sum_offDiag (f := fun _ => 1) (fun _ _ => rfl) h
  rw [Finset.sum_const, nsmul_one, List.map_const', List.sum_replicate, nsmul_one] at hcard
  simp only [Overlap.score_eq] at hsum
  rw [averageSimilarity, hsum, hcard, Overlap.mean_eq, List.map_map, List.length_map,
    mul_div_mul_left _ _ two_ne_zero]
  simp only [Function.comp_def, Overlap.score_eq]

/-- **A source quotes a file** — it has the texts of the lexemes as written. -/
def WindowSource.Quotes (source : WindowSource) (file : LexemeFile) : Prop :=
  source.written.toList = file.lexemes.map Lexeme.shown

theorem forall₂_quotes_ofNormalized (files : List NormalizedFile) :
    List.Forall₂ WindowSource.Quotes (files.map WindowSource.ofNormalized)
      (files.map NormalizedFile.lexemes) := by
  rw [List.forall₂_map_left_iff, List.forall₂_map_right_iff, List.forall₂_same]
  intro file _
  rw [WindowSource.Quotes, WindowSource.ofNormalized, Array.toList_map, NormalizedFile.lexemes,
    List.map_map]
  rfl

/-! ## Lists of results -/

section Results

variable {α β : Type} {f : α → Option β} {as : List α}

theorem forall₂_filterMap {r : α → β → Prop} (h : ∀ a ∈ as, ∃ b, f a = some b ∧ r a b) :
    List.Forall₂ r as (as.filterMap f) := by
  induction as with
  | nil => exact List.Forall₂.nil
  | cons a as ih =>
    obtain ⟨b, hb, hr⟩ := h a List.mem_cons_self
    rw [List.filterMap_cons_some hb]
    exact List.Forall₂.cons hr (ih fun a' ha' => h a' (List.mem_cons_of_mem a ha'))

/-- **Results come from the entries that have one**, in their order. -/
theorem exists_forall₂_filterMap (f : α → Option β) (as : List α) :
    ∃ kept, kept.Sublist as
      ∧ List.Forall₂ (fun a b => a ∈ as ∧ f a = some b) kept (as.filterMap f) := by
  refine ⟨as.filter fun a => (f a).isSome, List.filter_sublist, ?_⟩
  have hkept : as.filterMap f = (as.filter fun a => (f a).isSome).filterMap f := by
    rw [List.filterMap_filter]
    refine List.filterMap_congr fun a _ => ?_
    cases f a <;> rfl
  rw [hkept]
  refine forall₂_filterMap fun a ha => ?_
  obtain ⟨b, hb⟩ := Option.isSome_iff_exists.mp (List.mem_filter.mp ha).2
  exact ⟨b, hb, List.mem_of_mem_filter ha, hb⟩

end Results

/-! ## Groups of parts -/

namespace WindowSearch

section Parts

variable {S : Type} [Scoring S] {search : WindowSearch S} {sources : List WindowSource}
  {files : List LexemeFile} {hash : UInt64} {members : List Window} {group : CloneGroup S}

/-- **Windows that are alike do not crowd each other.** -/
theorem Alike.overlap_le {width : Nat} {first v w : Window}
    (h : Alike width sources first members) (hv : v ∈ members) (hw : w ∈ members) (hne : v ≠ w)
    (hsource : v.source = w.source) : overlap width v.start w.start ≤ width / 2 := by
  have hsymm : Std.Symm fun v w : Window =>
      v.source = w.source → overlap width v.start w.start ≤ width / 2 := by
    refine ⟨fun v w hle hsource => ?_⟩
    rw [overlap, min_comm, max_comm]
    exact hle hsource.symm
  exact (h.apart.imp clash_eq_false_iff.mp).forall hv hw hne hsource

/-- **What is in the group of a part.** -/
theorem group?_eq_some (h : search.group? sources.toArray hash members = some group) :
    2 ≤ members.length ∧ search.grade? sources.toArray members = some group.similarity
      ∧ group.kind = search.kind
      ∧ group.clones = members.filterMap (cloneOf sources.toArray search.width) := by
  rw [group?] at h
  split at h
  · exact absurd h nofun
  · next hlength =>
    obtain ⟨score, hscore, rfl⟩ := Option.map_eq_some_iff.mp h
    exact ⟨Nat.not_lt.mp hlength, hscore, rfl, rfl⟩

/-- **The group of a part is one of equal windows.** -/
theorem equalWindows_of_group? (hwidth : 0 < search.width)
    (hshows : List.Forall₂ WindowSource.Shows sources files)
    (hpart : (hash, members) ∈ partsOf search.width sources)
    (h : search.group? sources.toArray hash members = some group) :
    EqualWindows files search.width (members.map Window.place) group := by
  obtain ⟨htwo, -, -, hclones⟩ := group?_eq_some h
  obtain ⟨first, halike⟩ := exists_alike_of_mem_partsOf hwidth hpart
  have hwithin : ∀ window ∈ members, window ∈ allWindows search.width sources :=
    fun _ => mem_allWindows_of_mem hwidth hpart
  constructor
  · rwa [List.length_map]
  · exact (nodup_of_mem_partsOf hwidth hpart).map Window.place_injective
  · rw [List.forall₂_map_left_iff, hclones]
    exact forall₂_filterMap fun window hwindow =>
      exists_cloneOf hshows hwidth (hwithin window hwindow)
  · obtain ⟨some, hsome⟩ := List.exists_mem_of_length_pos (by omega : 0 < members.length)
    refine ⟨_, length_keysOf (hwithin some hsome), fun window hwindow => ?_⟩
    obtain ⟨member, hmember, rfl⟩ := List.mem_map.mp hwindow
    rw [← halike.same some hsome, halike.same member hmember]
    exact occurs_keysOf hshows (hwithin member hmember)
  · intro v hv w hw hne hsource
    obtain ⟨v', hv', rfl⟩ := List.mem_map.mp hv
    obtain ⟨w', hw', rfl⟩ := List.mem_map.mp hw
    exact halike.overlap_le hv' hw' (fun heq => hne (congrArg Window.place heq)) hsource

end Parts

/-! ## Grades -/

section Grades

variable {S : Type} [Scoring S] {search : WindowSearch S} {sources : List WindowSource}
  {files : List LexemeFile} {width : Nat} {members : List Window} {score : S}

/-- **Exact parts are fully alike.** -/
theorem grade?_exact (hkind : search.kind = .exact) :
    search.grade? sources.toArray members = some Scoring.one := by
  rw [grade?, if_neg (by rw [hkind]; exact nofun)]

/-- **Near parts have their mean**, and it is not below the minimum. -/
theorem grade?_near (hkind : search.kind = .near)
    (h : search.grade? sources.toArray members = some score) :
    score = Overlap.mean
        ((Window.pairs members).map (sharedTexts sources.toArray search.width))
      ∧ Scoring.less score search.minimum = false := by
  rw [grade?, if_pos hkind] at h
  dsimp only at h
  split at h
  · exact absurd h nofun
  · next hless =>
    obtain rfl := Option.some.inj h
    exact ⟨rfl, Bool.eq_false_of_not_eq_true hless⟩

variable (hquotes : List.Forall₂ WindowSource.Quotes sources files)

include hquotes

theorem toFinset_textsOf {window : Window} (h : window ∈ allWindows width sources) :
    (textsOf WindowSource.written sources.toArray width window).toFinset
      = textsAt files width window.place := by
  obtain ⟨source, hsource, -⟩ := mem_allWindows.mp h
  obtain ⟨file, hfile, hquoted⟩ := exists_file hquotes hsource
  rw [textsOf_eq WindowSource.written hsource, textsAt, Window.place, hfile, hquoted]

/-- **The grade of a part is read off its windows.** -/
theorem map_sharedTexts (h : ∀ window ∈ members, window ∈ allWindows width sources) :
    (Window.pairs members).map (sharedTexts sources.toArray width)
      = (Window.pairs (members.map Window.place)).map (textOverlap files width) := by
  rw [Window.pairs_map, List.map_map]
  refine List.map_congr_left fun pair hpair => ?_
  obtain ⟨hfirst, hsecond⟩ := Window.mem_of_mem_pairs hpair
  rw [sharedTexts, Overlap.ofSets_ofList, toFinset_textsOf hquotes (h _ hfirst),
    toFinset_textsOf hquotes (h _ hsecond)]
  rfl

end Grades

/-! ## What is returned -/

section Found

variable {S : Type} [Scoring S] {search : WindowSearch S} {sources : List WindowSource}
  {files : List LexemeFile}

/-- **The groups found** — those of all parts, before the first of each key is taken. -/
def found (search : WindowSearch S) (sources : List WindowSource) : List (CloneGroup S) :=
  (partsOf search.width sources).filterMap fun (hash, members) =>
    search.group? sources.toArray hash members

theorem value_windowedIn (hwidth : 0 < search.width) (sources : List WindowSource) :
    (windowedIn search sources).value = distinctGroups (search.found sources) := by
  rw [windowedIn]
  split
  · next hnone =>
    have hempty : sources.isEmpty = true := by
      rcases Bool.or_eq_true_iff.mp hnone with hempty | hzero
      · exact hempty
      · exact absurd (of_decide_eq_true hzero) hwidth.ne'
    have hbuckets : Window.buckets [] = [] := by simp [Window.buckets]
    rw [List.isEmpty_iff.mp hempty, found, partsOf, entries, List.zipIdx_nil, List.flatMap_nil,
      hbuckets]
    rfl
  · rfl

theorem mem_found {group : CloneGroup S} : group ∈ search.found sources
    ↔ ∃ part ∈ partsOf search.width sources,
      search.group? sources.toArray part.1 part.2 = some group :=
  List.mem_filterMap

/-- **The groups found are those of parts**, no two of which share a window. -/
theorem exists_parts (hwidth : 0 < search.width) (sources : List WindowSource) :
    ∃ kept : List (UInt64 × List Window),
      List.Forall₂ (fun part group => part ∈ partsOf search.width sources
        ∧ search.group? sources.toArray part.1 part.2 = some group) kept (search.found sources)
      ∧ (kept.map fun part => part.2.map Window.place).Pairwise List.Disjoint := by
  obtain ⟨kept, hkept, hgroups⟩ := exists_forall₂_filterMap
    (fun part : UInt64 × List Window => search.group? sources.toArray part.1 part.2)
    (partsOf search.width sources)
  refine ⟨kept, hgroups, List.pairwise_map.mpr ?_⟩
  exact ((pairwise_disjoint_partsOf hwidth sources).sublist hkept).imp
    (List.disjoint_map Window.place_injective)

/-- **A search returns groups of equal windows**, graded as its parts are. -/
theorem returns_windowedIn (hwidth : 0 < search.width)
    (hshows : List.Forall₂ WindowSource.Shows sources files)
    {graded : List (Nat × Nat) → CloneGroup S → Prop}
    (hgraded : ∀ members group, (∀ window ∈ members, window ∈ allWindows search.width sources) →
      group.kind = search.kind →
      search.grade? sources.toArray members = some group.similarity →
      graded (members.map Window.place) group) :
    Returns files search.width graded (search.found sources)
      (windowedIn search sources).value := by
  have hpart : ∀ part ∈ partsOf search.width sources, ∀ group,
      search.group? sources.toArray part.1 part.2 = some group →
      EqualWindows files search.width (part.2.map Window.place) group
        ∧ graded (part.2.map Window.place) group := by
    intro part hpart group hgroup
    obtain ⟨-, hgrade, hkind, -⟩ := group?_eq_some hgroup
    exact ⟨equalWindows_of_group? hwidth hshows hpart hgroup,
      hgraded _ _ (fun _ => mem_allWindows_of_mem hwidth hpart) hkind hgrade⟩
  have hreturned := value_windowedIn hwidth sources
  obtain ⟨kept, hgroups, hdisjoint⟩ := exists_parts hwidth sources
  refine ⟨⟨_, List.forall₂_map_left_iff.mpr ?_, hdisjoint⟩, hreturned, fun group hgroup => ?_,
    hreturned ▸ pairwise_key_distinctGroups _⟩
  · exact hgroups.imp fun part group h => hpart part h.1 group h.2
  · rw [hreturned] at hgroup
    obtain ⟨part, hmem, hsome⟩ := mem_found.mp ((distinctGroups_sublist _).subset hgroup)
    exact ⟨_, hpart part hmem group hsome⟩

/-- **A part with two members and a grade is returned** under the key of its group. -/
theorem exists_returned (hwidth : 0 < search.width)
    (hshows : List.Forall₂ WindowSource.Shows sources files) {hash : UInt64}
    {members : List Window} (hpart : (hash, members) ∈ partsOf search.width sources)
    (htwo : 2 ≤ members.length) {score : S}
    (hgrade : search.grade? sources.toArray members = some score) :
    ∃ group ∈ (windowedIn search sources).value, ∃ twin : CloneGroup S,
      EqualWindows files search.width (members.map Window.place) twin ∧ twin.key = group.key := by
  obtain ⟨twin, htwin⟩ : ∃ twin, search.group? sources.toArray hash members = some twin := by
    rw [group?, if_neg (Nat.not_lt.mpr htwo), hgrade]
    exact ⟨_, rfl⟩
  obtain ⟨group, hgroup, hkey⟩ := exists_key_distinctGroups (mem_found.mpr ⟨_, hpart, htwin⟩)
  rw [← value_windowedIn hwidth] at hgroup
  exact ⟨group, hgroup, twin, equalWindows_of_group? hwidth hshows hpart htwin, hkey.symm⟩

end Found

end WindowSearch

/-! ## Exact and near clones -/

open WindowSearch

variable {S : Type} [Scoring S] {width : Nat}

/-- **Exact groups are fully alike.** -/
theorem returns_exact (hwidth : 0 < width) (least : S) (files : List SourceFile) :
    Returns (files.map SourceFile.lexemes) width
      (fun _ group => group.kind = .exact ∧ group.similarity = Scoring.one)
      (found ⟨width, .exact, least⟩ (files.map WindowSource.ofFile))
      (windowedExact width least files).value := by
  let search : WindowSearch S := ⟨width, .exact, least⟩
  have hwidth : 0 < search.width := hwidth
  refine returns_windowedIn hwidth (forall₂_shows_ofFile files) fun _ _ _ hkind hgrade => ?_
  rw [grade?_exact rfl] at hgrade
  exact ⟨hkind, (Option.some.inj hgrade).symm⟩

/-- **Near groups have the mean over their pairs** as their similarity. -/
theorem returns_near (hwidth : 0 < width) (least : S) (files : List NormalizedFile) :
    Returns (files.map NormalizedFile.lexemes) width
      (fun windows group => group.kind = .near
        ∧ group.similarity = Overlap.mean ((Window.pairs windows).map
            (textOverlap (files.map NormalizedFile.lexemes) width))
        ∧ Scoring.less group.similarity least = false)
      (found ⟨width, .near, least⟩ (files.map WindowSource.ofNormalized))
      (windowedNormalized width least files).value := by
  let search : WindowSearch S := ⟨width, .near, least⟩
  have hwidth : 0 < search.width := hwidth
  refine returns_windowedIn hwidth (forall₂_shows_ofNormalized files)
    fun _ _ hwithin hkind hgrade => ?_
  obtain ⟨hmean, hless⟩ := grade?_near rfl hgrade
  rw [map_sharedTexts (forall₂_quotes_ofNormalized files) hwithin] at hmean
  exact ⟨hkind, hmean, hless⟩

/-- **Soundness of the detection by windows** — exact groups are of windows with equal texts and
fully alike.  Near groups are of windows with equal normalized texts, their similarity is the mean
over all pairs of windows and not below the minimum; with rational scores it is the average. -/
theorem windowed_sound (hwidth : 0 < width) (least : Float) (minimum : ℚ) (files : List SourceFile)
    (normalized : List NormalizedFile) :
    Returns (files.map SourceFile.lexemes) width
      (fun _ group => group.kind = .exact ∧ group.similarity = 1)
      (found ⟨width, .exact, least⟩ (files.map WindowSource.ofFile))
      (windowedExact width least files).value
    ∧ Returns (normalized.map NormalizedFile.lexemes) width
      (fun windows group => group.kind = .near
        ∧ group.similarity = Overlap.mean ((Window.pairs windows).map
            (textOverlap (normalized.map NormalizedFile.lexemes) width))
        ∧ Scoring.less group.similarity least = false)
      (found ⟨width, .near, least⟩ (normalized.map WindowSource.ofNormalized))
      (windowedNormalized width least normalized).value
    ∧ Returns (normalized.map NormalizedFile.lexemes) width
      (fun windows group => group.kind = .near
        ∧ group.similarity
          = averageSimilarity (normalized.map NormalizedFile.lexemes) width windows
        ∧ minimum ≤ group.similarity)
      (found ⟨width, .near, minimum⟩ (normalized.map WindowSource.ofNormalized))
      (windowedNormalized width minimum normalized).value := by
  refine ⟨returns_exact hwidth least files, returns_near hwidth least normalized,
    (returns_near hwidth minimum normalized).imp ?_⟩
  rintro windows group hequal ⟨hkind, hmean, hless⟩
  rw [mean_eq_averageSimilarity _ _ hequal.nodup] at hmean
  exact ⟨hkind, hmean, Overlap.less_eq_false_iff.mp hless⟩

/-- Three files of two tokens each; the one between has another name. -/
def variants : List SourceFile :=
  [⟨"a", #[⟨.keyword, "if", 1, 1⟩, ⟨.identifier, "x", 1, 4⟩], #[]⟩,
    ⟨"b", #[⟨.keyword, "if", 3, 1⟩, ⟨.identifier, "y", 3, 4⟩], #[]⟩,
    ⟨"c", #[⟨.keyword, "if", 5, 1⟩, ⟨.identifier, "x", 5, 4⟩], #[]⟩]

/-- The three files without their names. -/
def normalizedVariants : List NormalizedFile :=
  [⟨"a", #[⟨"if", "if", .keyword, 1, 1⟩, ⟨"$ID", "x", .identifier, 1, 4⟩], #[]⟩,
    ⟨"b", #[⟨"if", "if", .keyword, 3, 1⟩, ⟨"$ID", "y", .identifier, 3, 4⟩], #[]⟩,
    ⟨"c", #[⟨"if", "if", .keyword, 5, 1⟩, ⟨"$ID", "x", .identifier, 5, 4⟩], #[]⟩]

theorem normalize_variants : variants.map ({} : Normalizer).normalize = normalizedVariants := by
  have hkept : ∀ text ∈ ["x", "y"], (Std.HashSet.ofList defaultKept).contains text = false := by
    simp only [Std.HashSet.contains_ofList]
    decide
  simp only [variants, List.map_cons, List.map_nil, Normalizer.normalize, List.map_toArray,
    Normalizer.normalizeToken, Normalizer.replace, hkept "x" (by decide), hkept "y" (by decide)]
  decide

theorem parted_variants : Window.parted
    (joins (normalizedVariants.map WindowSource.ofNormalized).toArray 2)
    (bucketOf 2 (normalizedVariants.map WindowSource.ofNormalized) 140994)
      = [[⟨0, 0⟩, ⟨1, 0⟩, ⟨2, 0⟩]] := by
  cbv

/-- The three normalized windows make the only part. -/
theorem members_of_variants {part : UInt64 × List Window}
    (h : part ∈ partsOf 2 (normalizedVariants.map WindowSource.ofNormalized)) :
    part.2 = [⟨0, 0⟩, ⟨1, 0⟩, ⟨2, 0⟩] := by
  obtain ⟨hash, members⟩ := part
  have hall : ∀ window ∈ allWindows 2 (normalizedVariants.map WindowSource.ofNormalized),
      hashOf 2 (normalizedVariants.map WindowSource.ofNormalized) window = 140994 := by
    decide +kernel
  obtain ⟨window, hwindow⟩ := List.exists_mem_of_ne_nil members
    (Window.ne_nil_of_mem_parted ((mem_partsOf Nat.zero_lt_two).mp h))
  have hhash := hashOf_of_mem Nat.zero_lt_two h hwindow
  rw [hall window (mem_allWindows_of_mem Nat.zero_lt_two h hwindow)] at hhash
  rw [mem_partsOf Nat.zero_lt_two, ← hhash, parted_variants] at h
  exact List.mem_singleton.mp h

/-- Two of the three pairs share one text of three. -/
theorem grade?_variants :
    (⟨2, .near, 1 / 3⟩ : WindowSearch ℚ).grade?
      (normalizedVariants.map WindowSource.ofNormalized).toArray [⟨0, 0⟩, ⟨1, 0⟩, ⟨2, 0⟩]
        = some (5 / 9) := by
  have hwithin : ∀ window ∈ ([⟨0, 0⟩, ⟨1, 0⟩, ⟨2, 0⟩] : List Window),
      window ∈ allWindows 2 (normalizedVariants.map WindowSource.ofNormalized) := by
    decide +kernel
  rw [grade?, if_pos rfl,
    map_sharedTexts (forall₂_quotes_ofNormalized normalizedVariants) hwithin, Overlap.mean_eq]
  decide +kernel

/-- One exact group of two windows, and a near group of three whose average is five ninths. -/
theorem windowed_sound_of_variants :
    let normalized := variants.map ({} : Normalizer).normalize
    0 < 2 ∧ Returns (variants.map SourceFile.lexemes) 2
        (fun _ group => group.kind = .exact ∧ group.similarity = 1)
        (found ⟨2, .exact, (0 : Float)⟩ (variants.map WindowSource.ofFile))
        (windowedExact 2 (0 : Float) variants).value
      ∧ (∃ group, group ∈ (windowedExact 2 (0 : Float) variants).value)
      ∧ Returns (normalized.map NormalizedFile.lexemes) 2
        (fun windows group => group.kind = .near
          ∧ group.similarity = averageSimilarity (normalized.map NormalizedFile.lexemes) 2 windows
          ∧ 1 / 3 ≤ group.similarity)
        (found ⟨2, .near, 1 / 3⟩ (normalized.map WindowSource.ofNormalized))
        (windowedNormalized 2 (1 / 3 : ℚ) normalized).value
      ∧ ∃ group ∈ (windowedNormalized 2 (1 / 3 : ℚ) normalized).value,
        group.similarity = 5 / 9 := by
  intro normalized
  obtain ⟨hexact, -, hnear⟩ := windowed_sound Nat.zero_lt_two 0 (1 / 3) variants normalized
  refine ⟨Nat.zero_lt_two, hexact, ?_, hnear, ?_⟩
  · have hparted : Window.parted (joins (variants.map WindowSource.ofFile).toArray 2)
        (bucketOf 2 (variants.map WindowSource.ofFile) 104187) = [[⟨0, 0⟩, ⟨2, 0⟩]] := by
      cbv
    have hpart : (104187, [⟨0, 0⟩, ⟨2, 0⟩]) ∈ partsOf 2 (variants.map WindowSource.ofFile) := by
      rw [mem_partsOf Nat.zero_lt_two, hparted]
      exact List.mem_singleton_self _
    have hwidth : 0 < (⟨2, .exact, 0⟩ : WindowSearch Float).width := Nat.zero_lt_two
    obtain ⟨group, hgroup, -⟩ :=
      exists_returned hwidth (forall₂_shows_ofFile variants) hpart (by decide) (grade?_exact rfl)
    exact ⟨group, hgroup⟩
  · have hpart : (140994, [⟨0, 0⟩, ⟨1, 0⟩, ⟨2, 0⟩])
        ∈ partsOf 2 (normalizedVariants.map WindowSource.ofNormalized) := by
      rw [mem_partsOf Nat.zero_lt_two, parted_variants]
      exact List.mem_singleton_self _
    have hwidth : 0 < (⟨2, .near, 1 / 3⟩ : WindowSearch ℚ).width := Nat.zero_lt_two
    obtain ⟨group, hgroup, -⟩ := exists_returned hwidth
      (forall₂_shows_ofNormalized normalizedVariants) hpart (by decide) grade?_variants
    rw [show normalized = normalizedVariants from normalize_variants]
    refine ⟨group, hgroup, ?_⟩
    -- whichever part the group is of, that part has all three windows
    rw [value_windowedIn hwidth] at hgroup
    obtain ⟨part, hmem, hsome⟩ := mem_found.mp ((distinctGroups_sublist _).subset hgroup)
    obtain ⟨-, hgrade, -⟩ := WindowSearch.group?_eq_some hsome
    rw [members_of_variants hmem, grade?_variants] at hgrade
    exact (Option.some.inj hgrade).symm

end CodeClones.Detect
