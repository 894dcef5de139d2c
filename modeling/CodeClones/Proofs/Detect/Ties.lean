import CodeClones.Proofs.Detect.Run

/-!
# Proofs/Detect/Ties — which runs are kept in another order of the files

A repeated run is kept if at one of its places it is not mostly reached by runs that are kept and
precede it (`kept_iff`), a recursion along the runs (`forall_of_precedes`).  Longer runs precede
shorter ones in every order of the files, but runs of one length precede each other by the numbers
of their keys, and these are given in the order of first sight.  A run that is not contested is kept
in any case (`kept_of_not_contested`); for the others the two orders have to agree on ties, and then
they keep the same runs (`kept_congr`).
-/

namespace CodeClones.Detect

open Repeat TokenStream

variable {files files' : List LexemeFile} {least : Nat} {run other : List String}

/-! ## Kept runs -/

/-- The numbers of a run in the vocabulary of some files. -/
def numbers (files : List LexemeFile) (run : List String) : List Nat :=
  run.map (vocabulary files).number

/-- **One run precedes another** if it is longer, or as long with smaller numbers. -/
def Precedes (files : List LexemeFile) (run other : List String) : Prop :=
  other.length < run.length ∨ run.length = other.length ∧ numbers files run < numbers files other

/-- **A run is kept** if a selected region carries it. -/
def Kept (files : List LexemeFile) (least : Nat) (run : List String) : Prop :=
  ∃ region ∈ (RepeatTable.ofSuffixes (SuffixArray.ofText (ofFiles files).codes)).selected least,
    Carries files region run

section Region

variable {region : Repeat} (hleast : 0 < least)
  (hregion : IsRegion (ofFiles files).codes least region) (hcarries : Carries files region run)

include hleast hregion hcarries

/-- **A region covers what its run reaches.** -/
theorem covers_iff {f o : Nat} {file : LexemeFile} (hf : files[f]? = some file)
    (ho : o < file.lexemes.length) :
    region.Covers (startOf files f + o) ↔ file.Reaches run o := by
  constructor
  · rintro ⟨i, hi, hle, hlt⟩
    obtain ⟨f', file', o', hf', ho', rfl⟩ := exists_window_of_mem hleast hregion hi
    obtain ⟨rfl, hoffset⟩ := position_inj hf ho.le hf'
      (show o' + (startOf files f + o - (startOf files f' + o')) ≤ file'.lexemes.length by omega)
      (by omega)
    obtain rfl := Option.some.inj (hf.symm.trans hf')
    refine ⟨o', (hcarries.standsAt_iff hf (by omega)).mpr hi, by omega, ?_⟩
    rw [hcarries.length_eq]
    omega
  · rintro ⟨start, hstands, hle, hlt⟩
    rw [hcarries.length_eq] at hlt
    exact ⟨_, (hcarries.standsAt_iff hf (by omega)).mp hstands, by omega, by omega⟩

/-- The word of a region is its run in numbers. -/
theorem word_eq : region.word (ofFiles files).codes = (numbers files run).map Int.ofNat := by
  obtain ⟨p, hp, -⟩ := hregion.exists_ne 0
  obtain ⟨f, file, o, hf, ho, rfl⟩ := exists_window_of_mem hleast hregion hp
  have hstands := (hcarries.standsAt_iff hf (Nat.le_of_add_right_le ho)).mpr hp
  rw [← hregion.take_drop hp, take_drop_codes hf ho, ← hcarries.length_eq, hstands.2, numbers,
    List.map_map]
  rfl

/-- **Regions come in the order in which their runs precede each other.** -/
theorem before_iff {region' : Repeat} (hregion' : IsRegion (ofFiles files).codes least region')
    (hcarries' : Carries files region' other) :
    region.Before (ofFiles files).codes region' ↔ Precedes files run other := by
  have hwords : (numbers files run).map Int.ofNat < (numbers files other).map Int.ofNat
      ↔ numbers files run < numbers files other :=
    Order.map_lt_map_iff (fun _ _ _ _ => Int.ofNat_lt) fun _ _ _ _ => Int.ofNat_inj
  rw [Before, Precedes, word_eq hleast hregion hcarries, word_eq hleast hregion' hcarries', hwords,
    hcarries.length_eq, hcarries'.length_eq]

/-- What is covered at a place of a region is reached by the runs kept before it. -/
theorem mostOf_covered_iff (hnodup : files.Nodup) {f o : Nat} {file : LexemeFile}
    (hf : files[f]? = some file) (hstands : file.StandsAt run o) :
    (MostOf region.length fun t =>
        ∃ r ∈ (RepeatTable.ofSuffixes (SuffixArray.ofText (ofFiles files).codes)).selected least,
          r.Before (ofFiles files).codes region ∧ r.Covers (startOf files f + o + t))
      ↔ MostOf run.length fun t =>
        ∃ earlier, Kept files least earlier ∧ Precedes files earlier run
          ∧ file.Reaches earlier (o + t) := by
  rw [hcarries.length_eq]
  refine mostOf_congr fun t ht => ?_
  have ho : o + t < file.lexemes.length := by
    have := hstands.1
    rw [hcarries.length_eq] at this
    omega
  rw [Nat.add_assoc]
  constructor
  · rintro ⟨r, hr, hbefore, hcovers⟩
    have hr' := RepeatTable.isRegion_of_mem hleast (RepeatTable.mem_regions_of_mem_selected hr)
    obtain ⟨earlier, hearlier, -⟩ := exists_repeatedRun hleast hr' hnodup
    exact ⟨earlier, ⟨r, hr, hearlier⟩,
      (before_iff hleast hr' hearlier hregion hcarries).mp hbefore,
      (covers_iff hleast hr' hearlier hf ho).mp hcovers⟩
  · rintro ⟨earlier, ⟨r, hr, hearlier⟩, hprecedes, hreaches⟩
    have hr' := RepeatTable.isRegion_of_mem hleast (RepeatTable.mem_regions_of_mem_selected hr)
    exact ⟨r, hr, (before_iff hleast hr' hearlier hregion hcarries).mpr hprecedes,
      (covers_iff hleast hr' hearlier hf ho).mpr hreaches⟩

end Region

theorem Kept.repeatedRun (hleast : 0 < least) (hnodup : files.Nodup) (h : Kept files least run) :
    RepeatedRun files least run := by
  obtain ⟨region, hselected, hcarries⟩ := h
  exact hcarries.repeatedRun hleast (RepeatTable.isRegion_of_mem hleast
    (RepeatTable.mem_regions_of_mem_selected hselected)) hnodup

/-- **Which runs are kept** — those that at one of their places are not mostly reached by runs that
are kept and precede them. -/
theorem kept_iff (hleast : 0 < least) (hnodup : files.Nodup) :
    Kept files least run ↔ RepeatedRun files least run
      ∧ ∃ file ∈ files, ∃ offset, file.StandsAt run offset
        ∧ ¬ MostOf run.length fun t => ∃ earlier, Kept files least earlier
          ∧ Precedes files earlier run ∧ file.Reaches earlier (offset + t) := by
  constructor
  · intro hkept
    refine ⟨hkept.repeatedRun hleast hnodup, ?_⟩
    obtain ⟨region, hselected, hcarries⟩ := hkept
    obtain ⟨hmem, i, hi, hnot⟩ := (RepeatTable.mem_selected_iff hleast).mp hselected
    have hregion := RepeatTable.isRegion_of_mem hleast hmem
    obtain ⟨f, file, o, hf, ho, rfl⟩ := exists_window_of_mem hleast hregion hi
    have hstands := (hcarries.standsAt_iff hf (Nat.le_of_add_right_le ho)).mpr hi
    exact ⟨file, List.mem_of_getElem? hf, o, hstands, fun hmost =>
      hnot ((mostOf_covered_iff hleast hregion hcarries hnodup hf hstands).mpr hmost)⟩
  · rintro ⟨hrun, file, hfile, o, hstands, hnot⟩
    obtain ⟨region, hmem, hcarries⟩ := exists_carries hleast hnodup hrun
    have hregion := RepeatTable.isRegion_of_mem hleast hmem
    obtain ⟨f, hf⟩ := List.getElem?_of_mem hfile
    have hi := (hcarries.standsAt_iff hf (Nat.le_of_add_right_le hstands.1)).mp hstands
    exact ⟨region, (RepeatTable.mem_selected_iff hleast).mpr ⟨hmem, _, hi, fun hmost =>
      hnot ((mostOf_covered_iff hleast hregion hcarries hnodup hf hstands).mp hmost)⟩, hcarries⟩

/-- **Recursion along the runs** — what every repeated run has if those that precede it do, all
have. -/
theorem forall_of_precedes (hleast : 0 < least) (hnodup : files.Nodup) {has : List String → Prop}
    (hstep : ∀ run, RepeatedRun files least run →
      (∀ earlier, RepeatedRun files least earlier → Precedes files earlier run → has earlier) →
      has run) : ∀ run, RepeatedRun files least run → has run := by
  suffices h : ∀ region ∈ (RepeatTable.ofSuffixes
      (SuffixArray.ofText (ofFiles files).codes)).regions least, ∀ run, Carries files region run →
      has run by
    intro run hrun
    obtain ⟨region, hregion, hcarries⟩ := exists_carries hleast hnodup hrun
    exact h region hregion run hcarries
  refine RepeatTable.forall_mem_of_before (RepeatTable.pairwise_before hleast) ?_
  intro region hmem ih run hcarries
  have hregion := RepeatTable.isRegion_of_mem hleast hmem
  refine hstep run (hcarries.repeatedRun hleast hregion hnodup) fun earlier hearlier hprecedes => ?_
  obtain ⟨r, hr, hcarries'⟩ := exists_carries hleast hnodup hearlier
  exact ih r hr ((before_iff hleast (RepeatTable.isRegion_of_mem hleast hr) hcarries' hregion
    hcarries).mpr hprecedes) earlier hcarries'

/-! ## Contested runs -/

/-- **A run is contested** if each of its places is mostly reached by other repeated runs that are
at least as long. -/
def Contested (files : List LexemeFile) (least : Nat) (run : List String) : Prop :=
  ∀ file ∈ files, ∀ offset, file.StandsAt run offset → MostOf run.length fun t =>
    ∃ other, RepeatedRun files least other ∧ other ≠ run ∧ run.length ≤ other.length
      ∧ file.Reaches other (offset + t)

/-- Two runs meet at a token that both reach. -/
def Meet (files : List LexemeFile) (run other : List String) : Prop :=
  ∃ file ∈ files, ∃ offset, file.Reaches run offset ∧ file.Reaches other offset

/-- **Ties agree** — in both orders of the files a contested run comes before or after another
repeated run of its length that it meets. -/
def TiesAgree (files files' : List LexemeFile) (least : Nat) : Prop :=
  ∀ run other, RepeatedRun files least run → RepeatedRun files least other → run ≠ other →
    run.length = other.length → Meet files run other → Contested files least run →
    (numbers files other < numbers files run ↔ numbers files' other < numbers files' run)

theorem contested_congr (h : ∀ file, file ∈ files ↔ file ∈ files') :
    Contested files least run ↔ Contested files' least run := by
  simp only [Contested, h, repeatedRun_congr h]

theorem Precedes.ne (h : Precedes files other run) : other ≠ run := by
  rintro rfl
  rcases h with hlt | ⟨-, hlt⟩
  · exact lt_irrefl _ hlt
  · exact lt_irrefl _ hlt

theorem Precedes.length_le (h : Precedes files other run) : run.length ≤ other.length :=
  h.elim Nat.le_of_lt fun hsame => hsame.1.ge

/-- **What is not contested is kept.** -/
theorem kept_of_not_contested (hleast : 0 < least) (hnodup : files.Nodup)
    (hrun : RepeatedRun files least run) (hcontested : ¬ Contested files least run) :
    Kept files least run := by
  refine (kept_iff hleast hnodup).mpr ⟨hrun, ?_⟩
  by_contra hnone
  refine hcontested fun file hfile offset hstands => ?_
  by_contra hfew
  refine hnone ⟨file, hfile, offset, hstands, fun hmost => hfew (hmost.mono fun t _ => ?_)⟩
  rintro ⟨earlier, hkept, hprecedes, hreaches⟩
  exact ⟨earlier, hkept.repeatedRun hleast hnodup, hprecedes.ne, hprecedes.length_le, hreaches⟩

/-! ## Another order of the files -/

/-- Where ties agree, what precedes a contested run in one order precedes it in the other. -/
theorem TiesAgree.precedes_iff (hties : TiesAgree files files' least)
    (hrun : RepeatedRun files least run) (hother : RepeatedRun files least other)
    (hmeet : Meet files run other) (hcontested : Contested files least run) :
    Precedes files other run ↔ Precedes files' other run := by
  rw [Precedes, Precedes]
  refine or_congr_right (and_congr_right fun hlength => ?_)
  rcases eq_or_ne run other with rfl | hne
  · exact iff_of_false (lt_irrefl _) (lt_irrefl _)
  · exact hties run other hrun hother hne hlength.symm hmeet hcontested

section Orders

variable (hleast : 0 < least) (hmem : ∀ file, file ∈ files ↔ file ∈ files')
  (hnodup : files.Nodup) (hnodup' : files'.Nodup) (hties : TiesAgree files files' least)

include hleast hmem hnodup hnodup' hties

/-- A contested run is reached by the same runs before it, if these are kept in both orders or in
none. -/
theorem TiesAgree.reaches_iff (hrun : RepeatedRun files least run)
    (hcontested : Contested files least run)
    (hsame : ∀ earlier, RepeatedRun files least earlier → Precedes files earlier run →
      (Kept files least earlier ↔ Kept files' least earlier))
    {file : LexemeFile} (hfile : file ∈ files) {offset : Nat} (hreached : file.Reaches run offset) :
    (∃ earlier, Kept files least earlier ∧ Precedes files earlier run
        ∧ file.Reaches earlier offset)
      ↔ ∃ earlier, Kept files' least earlier ∧ Precedes files' earlier run
        ∧ file.Reaches earlier offset := by
  have hprecedes : ∀ {earlier}, RepeatedRun files least earlier → file.Reaches earlier offset →
      (Precedes files earlier run ↔ Precedes files' earlier run) := fun hearlier hreaches =>
    hties.precedes_iff hrun hearlier ⟨file, hfile, offset, hreached, hreaches⟩ hcontested
  constructor
  · rintro ⟨earlier, hkept, hbefore, hreaches⟩
    have hearlier := hkept.repeatedRun hleast hnodup
    exact ⟨earlier, (hsame earlier hearlier hbefore).mp hkept,
      (hprecedes hearlier hreaches).mp hbefore, hreaches⟩
  · rintro ⟨earlier, hkept, hbefore, hreaches⟩
    have hearlier := (repeatedRun_congr hmem).mpr (hkept.repeatedRun hleast hnodup')
    have hbefore := (hprecedes hearlier hreaches).mpr hbefore
    exact ⟨earlier, (hsame earlier hearlier hbefore).mpr hkept, hbefore, hreaches⟩

/-- **Where ties agree, two orders of the files keep the same runs.** -/
theorem kept_congr (run : List String) : Kept files least run ↔ Kept files' least run := by
  have hrepeated : ∀ run, RepeatedRun files least run →
      (Kept files least run ↔ Kept files' least run) := by
    refine forall_of_precedes hleast hnodup fun run hrun hsame => ?_
    by_cases hcontested : Contested files least run
    · rw [kept_iff hleast hnodup, kept_iff hleast hnodup', ← repeatedRun_congr hmem]
      simp only [← hmem]
      refine and_congr_right fun _ => exists_congr fun file => and_congr_right fun hfile =>
        exists_congr fun offset => and_congr_right fun hstands => not_congr (mostOf_congr ?_)
      intro t ht
      exact hties.reaches_iff hleast hmem hnodup hnodup' hrun hcontested hsame hfile
        ⟨offset, hstands, Nat.le_add_right _ _, Nat.add_lt_add_left ht offset⟩
    · exact iff_of_true (kept_of_not_contested hleast hnodup hrun hcontested)
        (kept_of_not_contested hleast hnodup' ((repeatedRun_congr hmem).mp hrun)
          fun hcontested' => hcontested ((contested_congr hmem).mpr hcontested'))
  by_cases hrun : RepeatedRun files least run
  · exact hrepeated run hrun
  · exact iff_of_false (fun hkept => hrun (hkept.repeatedRun hleast hnodup)) fun hkept =>
      hrun ((repeatedRun_congr hmem).mpr (hkept.repeatedRun hleast hnodup'))

end Orders

end CodeClones.Detect
