import CodeClones.Proofs.Detect.Coverage
import CodeClones.Proofs.Repeat.Precedence

/-!
# Proofs/Detect/Run — the runs behind the regions

A region of the stream carries a run of keys, which stands exactly where the region has a position
(`Carries`).  The runs carried are the repeated runs of the files (`exists_repeatedRun`,
`exists_carries`).  What a repeated run is does not mention the stream, so neither the order of the
files nor the numbers of the keys enter.
-/

namespace CodeClones

namespace LexemeFile

/-! ## Where a run stands -/

/-- **A run stands at an offset** of a file that has its keys from there on. -/
def StandsAt (file : LexemeFile) (run : List String) (offset : Nat) : Prop :=
  offset + run.length ≤ file.lexemes.length ∧ file.keys offset run.length = run

/-- **A run reaches an offset** that lies within one of the places where it stands. -/
def Reaches (file : LexemeFile) (run : List String) (offset : Nat) : Prop :=
  ∃ start, file.StandsAt run start ∧ start ≤ offset ∧ offset < start + run.length

variable {file : LexemeFile} {run shorter : List String} {offset : Nat}

theorem standsAt_keys {length : Nat} (h : offset + length ≤ file.lexemes.length) :
    file.StandsAt (file.keys offset length) offset := by
  rw [StandsAt, file.length_keys h]
  exact ⟨h, rfl⟩

/-- **Initial parts of a run** stand where it stands. -/
theorem StandsAt.initial (h : file.StandsAt run offset) (hinitial : shorter <+: run) :
    file.StandsAt shorter offset := by
  obtain ⟨hfits, hkeys⟩ := h
  have hle := hinitial.length_le
  refine ⟨by omega, ?_⟩
  rw [List.prefix_iff_eq_take.mp hinitial, ← hkeys, keys, keys, List.length_take, List.length_take,
    List.length_drop, List.length_map, List.take_take]
  congr 1
  omega

theorem StandsAt.take (h : file.StandsAt run offset) (length : Nat) :
    file.StandsAt (run.take length) offset :=
  h.initial ⟨run.drop length, List.take_append_drop length run⟩

/-- Of two runs that stand at one offset the shorter one is an initial part of the other. -/
theorem StandsAt.prefix_of_le {longer : List String} (h : file.StandsAt run offset)
    (h' : file.StandsAt longer offset) (hle : run.length ≤ longer.length) : run <+: longer := by
  rw [← h.2, ← h'.2, keys, keys]
  exact List.take_prefix_take_left hle

end LexemeFile

namespace Detect

open Repeat TokenStream

/-! ## Repeated runs -/

/-- **A repeated run** — it stands at two places, it stands wherever its first `least` keys do, and
no longer run stands at all of its places. -/
structure RepeatedRun (files : List LexemeFile) (least : Nat) (run : List String) : Prop where
  least_le : least ≤ run.length
  twice : ∃ file ∈ files, ∃ offset, ∃ file' ∈ files, ∃ offset', (file, offset) ≠ (file', offset')
    ∧ file.StandsAt run offset ∧ file'.StandsAt run offset'
  closed : ∀ file ∈ files, ∀ offset, file.StandsAt (run.take least) offset →
    file.StandsAt run offset
  tight : ∀ key, ∃ file ∈ files, ∃ offset, file.StandsAt run offset
    ∧ ¬ file.StandsAt (run ++ [key]) offset

variable {files : List LexemeFile} {least : Nat} {run : List String}

/-- Whether a run is repeated does not depend on the order of the files. -/
theorem repeatedRun_congr {files' : List LexemeFile} (h : ∀ file, file ∈ files ↔ file ∈ files') :
    RepeatedRun files least run ↔ RepeatedRun files' least run := by
  have hsame : ∀ {files files' : List LexemeFile}, (∀ file, file ∈ files ↔ file ∈ files') →
      RepeatedRun files least run → RepeatedRun files' least run := by
    intro files files' h hrun
    obtain ⟨hle, htwice, hclosed, htight⟩ := hrun
    simp only [h] at htwice hclosed htight
    exact ⟨hle, htwice, hclosed, htight⟩
  exact ⟨hsame h, hsame fun file => (h file).symm⟩

/-- **Repeated runs that stand at one place** are no longer than each other. -/
theorem RepeatedRun.length_le {other : List String} (h : RepeatedRun files least run)
    (h' : RepeatedRun files least other) {file : LexemeFile} {offset : Nat}
    (hrun : file.StandsAt run offset) (hother : file.StandsAt other offset) :
    other.length ≤ run.length := by
  by_contra hlt
  obtain ⟨rest, rfl⟩ := hrun.prefix_of_le hother (Nat.le_of_not_le hlt)
  obtain ⟨key, rest, rfl⟩ := List.exists_cons_of_ne_nil
    (show rest ≠ [] by rintro rfl; simp at hlt)
  -- wherever the run stands the other one stands, so the run goes on with one key everywhere
  obtain ⟨place, hplace, o, hstands, hnot⟩ := h.tight key
  refine hnot ((h'.closed place hplace o ?_).initial ⟨rest, by simp⟩)
  rw [List.take_append_of_le_length h.least_le]
  exact hstands.take least

theorem RepeatedRun.eq_of_standsAt {other : List String} (h : RepeatedRun files least run)
    (h' : RepeatedRun files least other) {file : LexemeFile} {offset : Nat}
    (hrun : file.StandsAt run offset) (hother : file.StandsAt other offset) : run = other := by
  have hlength := Nat.le_antisymm (h'.length_le h hother hrun) (h.length_le h' hrun hother)
  exact (hrun.prefix_of_le hother hlength.le).eq_of_length hlength

/-! ## Runs and regions -/

/-- **A region carries a run** that is as long and stands where the region has its positions. -/
structure Carries (files : List LexemeFile) (region : Repeat) (run : List String) : Prop where
  length_eq : run.length = region.length
  standsAt_iff : ∀ {f o : Nat} {file : LexemeFile}, files[f]? = some file →
    o ≤ file.lexemes.length → (file.StandsAt run o ↔ startOf files f + o ∈ region.positions)

section Region

variable {region : Repeat} (hleast : 0 < least)
  (hregion : IsRegion (ofFiles files).codes least region)

include hleast hregion

/-- A region carries the keys of its windows. -/
theorem carries_keys {f o : Nat} {file : LexemeFile} (hf : files[f]? = some file)
    (hp : startOf files f + o ∈ region.positions) (ho : o + region.length ≤ file.lexemes.length) :
    Carries files region (file.keys o region.length) where
  length_eq := file.length_keys ho
  standsAt_iff {f' o' file'} hf' ho' := by
    have hiff : Occurs files (file.keys o region.length) (f', o') ↔ _ :=
      occurs_keys_iff hregion hf hp ho
    constructor
    · intro hstands
      obtain ⟨-, -, -, hp'⟩ := hiff.mp ⟨file', hf', hstands⟩
      exact hp'
    · intro hp'
      obtain ⟨_, hf'', hstands⟩ :=
        hiff.mpr ⟨file', hf', le_length_of_mem hleast hregion hf' ho' hp', hp'⟩
      obtain rfl := Option.some.inj (hf'.symm.trans hf'')
      exact hstands

/-- **What a region carries is a repeated run.** -/
theorem Carries.repeatedRun (hnodup : files.Nodup) (h : Carries files region run) :
    RepeatedRun files least run := by
  have hstands : ∀ p ∈ region.positions, ∃ f file o, files[f]? = some file
      ∧ file.StandsAt run o ∧ p = startOf files f + o := by
    intro p hp
    obtain ⟨f, file, o, hf, ho, rfl⟩ := exists_window_of_mem hleast hregion hp
    exact ⟨f, file, o, hf, (h.standsAt_iff hf (Nat.le_of_add_right_le ho)).mpr hp, rfl⟩
  obtain ⟨p, hp, q, hq, hne, hshared⟩ := hregion.tight
  obtain ⟨f, file, o, hf, hrun, rfl⟩ := hstands p hp
  obtain ⟨f', file', o', hf', hrun', rfl⟩ := hstands q hq
  have hle : least ≤ run.length := h.length_eq ▸ hregion.least_le
  refine ⟨hle, ?_, ?_, ?_⟩
  · refine ⟨file, List.mem_of_getElem? hf, o, file', List.mem_of_getElem? hf', o', ?_, hrun, hrun'⟩
    rintro heq
    obtain ⟨rfl, rfl⟩ := Prod.mk.inj heq
    have hindex := (List.getElem?_inj (List.getElem?_eq_some_iff.mp hf).1 hnodup).mp
      (hf.trans hf'.symm)
    exact hne (by rw [hindex])
  · intro other hother i htake
    obtain ⟨g, hg⟩ := List.getElem?_of_mem hother
    have htake' := hrun.take least
    have hlength : (run.take least).length = least := by
      rw [List.length_take, Nat.min_eq_left hle]
    rw [LexemeFile.StandsAt, hlength] at htake htake'
    rw [h.standsAt_iff hg (Nat.le_of_add_right_le htake.1)]
    by_cases heq : startOf files f + o = startOf files g + i
    · rwa [← heq]
    · exact hregion.closed _ hp _ heq
        ((le_sharedAt_iff hf htake'.1 hg htake.1).mpr (htake'.2.trans htake.2.symm))
  · intro key
    by_contra hall
    have hlonger : ∀ file ∈ files, ∀ o, file.StandsAt run o → file.StandsAt (run ++ [key]) o :=
      fun file hfile o hstands => by
        by_contra hnot
        exact hall ⟨file, hfile, o, hstands, hnot⟩
    have hp' := hlonger file (List.mem_of_getElem? hf) o hrun
    have hq' := hlonger file' (List.mem_of_getElem? hf') o' hrun'
    have hmore := (le_sharedAt_iff hf hp'.1 hf' hq'.1).mpr (hp'.2.trans hq'.2.symm)
    rw [hshared, List.length_append, h.length_eq, List.length_singleton] at hmore
    omega

/-- **Every region carries a repeated run.** -/
theorem exists_repeatedRun (hnodup : files.Nodup) :
    ∃ run, Carries files region run ∧ RepeatedRun files least run := by
  obtain ⟨p, hp, -⟩ := hregion.exists_ne 0
  obtain ⟨f, file, o, hf, ho, rfl⟩ := exists_window_of_mem hleast hregion hp
  have hcarries := carries_keys hleast hregion hf hp ho
  exact ⟨_, hcarries, hcarries.repeatedRun hleast hregion hnodup⟩

end Region

/-- **Every repeated run is carried by a region.** -/
theorem exists_carries (hleast : 0 < least) (hnodup : files.Nodup)
    (h : RepeatedRun files least run) :
    ∃ region ∈ (RepeatTable.ofSuffixes (SuffixArray.ofText (ofFiles files).codes)).regions least,
      Carries files region run := by
  obtain ⟨file, hfile, o, file', hfile', o', hne, hstands, hstands'⟩ := h.twice
  obtain ⟨f, hf⟩ := List.getElem?_of_mem hfile
  obtain ⟨f', hf'⟩ := List.getElem?_of_mem hfile'
  have hstarts : startOf files f + o ≠ startOf files f' + o' := by
    intro heq
    obtain ⟨rfl, rfl⟩ := position_inj hf (Nat.le_of_add_right_le hstands.1) hf'
      (Nat.le_of_add_right_le hstands'.1) heq
    rw [hf, Option.some.injEq] at hf'
    exact hne (by rw [hf'])
  have hshared := (le_sharedAt_iff hf hstands.1 hf' hstands'.1).mpr
    (hstands.2.trans hstands'.2.symm)
  obtain ⟨region, hmem, hp, -⟩ :=
    RepeatTable.exists_mem_regions hleast hstarts (h.least_le.trans hshared)
  have hregion := RepeatTable.isRegion_of_mem hleast hmem
  have ho := le_length_of_mem hleast hregion hf (Nat.le_of_add_right_le hstands.1) hp
  have hcarries := carries_keys hleast hregion hf hp ho
  refine ⟨region, hmem, ?_⟩
  rw [h.eq_of_standsAt (hcarries.repeatedRun hleast hregion hnodup) hstands
    (LexemeFile.standsAt_keys ho)]
  exact hcarries

end Detect

end CodeClones
