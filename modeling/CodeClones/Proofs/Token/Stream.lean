import CodeClones.Proofs.Repeat.Region
import CodeClones.Proofs.Token.Vocabulary
import CodeClones.Proofs.Token.Window

/-!
# Proofs/Token/Stream — equal windows of the stream lie within files

Every position of the stream is a token of a file or the separator behind it
(`exists_file_of_lt`).  A separator's code occurs nowhere else, so a window that occurs twice has
none (`exists_window_of_shared`), and windows within files share their codes exactly if they have
the same keys (`le_sharedAt_iff`).
-/

namespace CodeClones

namespace TokenStream

open Repeat

/-! ## Positions -/

/-- Where a file starts in the stream. -/
def startOf (files : List LexemeFile) (f : Nat) : Nat :=
  ((files.take f).map fun file => file.lexemes.length + 1).sum

theorem startOf_cons_succ (file : LexemeFile) (files : List LexemeFile) (f : Nat) :
    startOf (file :: files) (f + 1) = file.lexemes.length + 1 + startOf files f := by
  rw [startOf, List.take_succ_cons, List.map_cons, List.sum_cons, startOf]

/-- **Blocks laid end to end** — one block a file, one entry longer than the file. -/
theorem getElem?_flatMap_zipIdx {β : Type} {g : LexemeFile × Nat → List β}
    (hg : ∀ entry, (g entry).length = entry.1.lexemes.length + 1) {files : List LexemeFile}
    {file : LexemeFile} {start f o : Nat} (hf : files[f]? = some file)
    (ho : o ≤ file.lexemes.length) :
    ((files.zipIdx start).flatMap g)[startOf files f + o]? = (g (file, start + f))[o]? := by
  induction files generalizing start f with
  | nil => simp at hf
  | cons first files ih =>
    rw [List.zipIdx_cons, List.flatMap_cons]
    match f with
    | 0 =>
      rw [List.getElem?_cons_zero, Option.some.injEq] at hf
      subst hf
      rw [startOf, List.take_zero, List.map_nil, List.sum_nil, Nat.zero_add,
        List.getElem?_append_left (by rw [hg]; exact Nat.lt_succ_of_le ho), Nat.add_zero]
    | f + 1 =>
      rw [List.getElem?_cons_succ] at hf
      rw [startOf_cons_succ, List.getElem?_append_right (by rw [hg]; dsimp only; omega), hg,
        show first.lexemes.length + 1 + startOf files f + o - (first.lexemes.length + 1)
          = startOf files f + o by omega, ih hf, show start + 1 + f = start + (f + 1) by omega]

theorem length_flatMap_zipIdx {β : Type} {g : LexemeFile × Nat → List β}
    (hg : ∀ entry, (g entry).length = entry.1.lexemes.length + 1) (files : List LexemeFile)
    (start : Nat) : ((files.zipIdx start).flatMap g).length = startOf files files.length := by
  induction files generalizing start with
  | nil => rfl
  | cons first files ih =>
    rw [List.zipIdx_cons, List.flatMap_cons, List.length_append, hg, ih, List.length_cons,
      startOf_cons_succ]

/-- **Every position belongs to a file**, as a token or as the separator behind it. -/
theorem exists_file_of_lt {files : List LexemeFile} {p : Nat}
    (hp : p < startOf files files.length) :
    ∃ f file o, files[f]? = some file ∧ o ≤ file.lexemes.length ∧ p = startOf files f + o := by
  induction files generalizing p with
  | nil => exact absurd hp (Nat.not_lt_zero p)
  | cons first files ih =>
    rw [List.length_cons, startOf_cons_succ] at hp
    rcases Nat.lt_or_ge p (first.lexemes.length + 1) with hin | hout
    · exact ⟨0, first, p, List.getElem?_cons_zero, by omega, by simp [startOf]⟩
    · obtain ⟨f, file, o, hf, ho, heq⟩ := ih (p := p - (first.lexemes.length + 1)) (by omega)
      refine ⟨f + 1, file, o, by rwa [List.getElem?_cons_succ], ho, ?_⟩
      rw [startOf_cons_succ]
      omega

/-! ## What stands at a position -/

/-- The vocabulary of the keys of all files. -/
def vocabulary (files : List LexemeFile) : Vocabulary :=
  Vocabulary.ofTexts (files.flatMap fun file => file.lexemes.map Lexeme.key)

section Files

variable {files : List LexemeFile} {file : LexemeFile} {lexeme : Lexeme} {f o : Nat}

theorem size_codes (files : List LexemeFile) :
    (ofFiles files).codes.size = startOf files files.length := by
  rw [ofFiles, List.size_toArray]
  exact length_flatMap_zipIdx (fun _ => by simp) files 0

theorem size_places (files : List LexemeFile) :
    (ofFiles files).places.size = startOf files files.length := by
  rw [ofFiles, List.size_toArray]
  exact length_flatMap_zipIdx (fun _ => by simp) files 0

theorem texts_eq (files : List LexemeFile) :
    (ofFiles files).texts = (files.zipIdx.flatMap fun entry =>
      entry.1.lexemes.map Lexeme.shown ++ [separatorText]).toArray := by
  refine congrArg List.toArray ?_
  conv_lhs => rw [← List.zipIdx_map_fst 0 files, List.flatMap_map]

theorem size_texts (files : List LexemeFile) :
    (ofFiles files).texts.size = startOf files files.length := by
  rw [texts_eq, List.size_toArray]
  exact length_flatMap_zipIdx (fun _ => by simp) files 0

theorem getElem?_codes (hf : files[f]? = some file) (ho : o ≤ file.lexemes.length) :
    (ofFiles files).codes[startOf files f + o]?
      = (file.lexemes.map (fun lexeme => Int.ofNat ((vocabulary files).number lexeme.key))
        ++ [Int.ofNat ((vocabulary files).size + 1 + f)])[o]? := by
  rw [ofFiles, List.getElem?_toArray, getElem?_flatMap_zipIdx (fun _ => by simp) hf ho,
    Nat.zero_add]
  rfl

theorem getElem?_places (hf : files[f]? = some file) (ho : o ≤ file.lexemes.length) :
    (ofFiles files).places[startOf files f + o]?
      = (file.lexemes.map (fun lexeme => Place.mk f lexeme.line lexeme.column)
        ++ [Place.mk f (-1) (-1)])[o]? := by
  rw [ofFiles, List.getElem?_toArray, getElem?_flatMap_zipIdx (fun _ => by simp) hf ho,
    Nat.zero_add]

theorem place_of_token (hf : files[f]? = some file) (hlexeme : file.lexemes[o]? = some lexeme) :
    (ofFiles files).places[startOf files f + o]? = some ⟨f, lexeme.line, lexeme.column⟩ := by
  have ho := (List.getElem?_eq_some_iff.mp hlexeme).1
  rw [getElem?_places hf ho.le, List.getElem?_append_left (by simpa using ho), List.getElem?_map,
    hlexeme, Option.map_some]

theorem place_of_separator (hf : files[f]? = some file) :
    (ofFiles files).places[startOf files f + file.lexemes.length]? = some ⟨f, -1, -1⟩ := by
  rw [getElem?_places hf (Nat.le_refl _), List.getElem?_append_right (by simp)]
  simp

theorem getElem?_texts (hf : files[f]? = some file) (ho : o ≤ file.lexemes.length) :
    (ofFiles files).texts[startOf files f + o]?
      = (file.lexemes.map Lexeme.shown ++ [separatorText])[o]? := by
  rw [texts_eq, List.getElem?_toArray, getElem?_flatMap_zipIdx (fun _ => by simp) hf ho]

theorem text_of_token (hf : files[f]? = some file) (hlexeme : file.lexemes[o]? = some lexeme) :
    (ofFiles files).texts[startOf files f + o]? = some lexeme.shown := by
  have ho := (List.getElem?_eq_some_iff.mp hlexeme).1
  rw [getElem?_texts hf ho.le, List.getElem?_append_left (by simpa using ho), List.getElem?_map,
    hlexeme, Option.map_some]

theorem text_of_separator (hf : files[f]? = some file) :
    (ofFiles files).texts[startOf files f + file.lexemes.length]? = some separatorText := by
  rw [getElem?_texts hf (Nat.le_refl _), List.getElem?_append_right (by simp)]
  simp

/-- The file of a position is that of its place. -/
theorem exists_place (hf : files[f]? = some file) (ho : o ≤ file.lexemes.length) :
    ∃ place, (ofFiles files).places[startOf files f + o]? = some place ∧ place.file = f := by
  rcases Nat.eq_or_lt_of_le ho with rfl | hlt
  · exact ⟨_, place_of_separator hf, rfl⟩
  · exact ⟨_, place_of_token hf (List.getElem?_eq_getElem hlt), rfl⟩

/-- **A position belongs to one file only.** -/
theorem position_inj {file' : LexemeFile} {f' o' : Nat} (hf : files[f]? = some file)
    (ho : o ≤ file.lexemes.length) (hf' : files[f']? = some file') (ho' : o' ≤ file'.lexemes.length)
    (heq : startOf files f + o = startOf files f' + o') : f = f' ∧ o = o' := by
  obtain ⟨place, hplace, rfl⟩ := exists_place hf ho
  obtain ⟨place', hplace', rfl⟩ := exists_place hf' ho'
  rw [heq, hplace', Option.some.injEq] at hplace
  subst hplace
  exact ⟨rfl, by omega⟩

theorem code_of_token (hf : files[f]? = some file) (hlexeme : file.lexemes[o]? = some lexeme) :
    (ofFiles files).codes[startOf files f + o]?
      = some (Int.ofNat ((vocabulary files).number lexeme.key)) := by
  have ho := (List.getElem?_eq_some_iff.mp hlexeme).1
  rw [getElem?_codes hf ho.le, List.getElem?_append_left (by simpa using ho), List.getElem?_map,
    hlexeme, Option.map_some]

theorem code_of_separator (hf : files[f]? = some file) :
    (ofFiles files).codes[startOf files f + file.lexemes.length]?
      = some (Int.ofNat ((vocabulary files).size + 1 + f)) := by
  rw [getElem?_codes hf (Nat.le_refl _), List.getElem?_append_right (by simp)]
  simp

theorem mem_keys (hf : files[f]? = some file) (hlexeme : lexeme ∈ file.lexemes) :
    lexeme.key ∈ files.flatMap fun file => file.lexemes.map Lexeme.key :=
  List.mem_flatMap.mpr ⟨file, List.mem_of_getElem? hf, List.mem_map_of_mem hlexeme⟩

/-- **A separator's code occurs nowhere else.** -/
theorem eq_of_code_eq_separator {p : Nat} (hf : files[f]? = some file)
    (hp : (ofFiles files).codes[p]? = some (Int.ofNat ((vocabulary files).size + 1 + f))) :
    p = startOf files f + file.lexemes.length := by
  have hlt : p < startOf files files.length := by
    rw [← size_codes]
    exact (Array.getElem?_eq_some_iff.mp hp).1
  obtain ⟨f', file', o, hf', ho, rfl⟩ := exists_file_of_lt hlt
  rcases Nat.eq_or_lt_of_le ho with rfl | hlt
  · rw [code_of_separator hf', Option.some.injEq, Int.ofNat_eq_natCast, Int.ofNat_eq_natCast,
      Int.natCast_inj] at hp
    obtain rfl : f' = f := by omega
    rw [hf] at hf'
    rw [Option.some.inj hf']
  · have hlexeme := List.getElem?_eq_getElem hlt
    rw [code_of_token hf' hlexeme, Option.some.injEq, Int.ofNat_eq_natCast, Int.ofNat_eq_natCast,
      Int.natCast_inj] at hp
    have hle := Vocabulary.number_le (mem_keys hf' (List.mem_of_getElem? hlexeme))
    rw [← vocabulary] at hle
    omega

end Files

/-- **The codes, read off the files** — a key is numbered by its place among the distinct keys. -/
theorem codes_eq (files : List LexemeFile) :
    (ofFiles files).codes = (files.zipIdx.flatMap fun (file, index) =>
      file.lexemes.map (fun lexeme => Int.ofNat
        ((files.flatMap fun file => file.lexemes.map Lexeme.key).eraseDups.idxOf lexeme.key + 1))
      ++ [Int.ofNat ((files.flatMap fun file => file.lexemes.map Lexeme.key).eraseDups.length
        + 1 + index)]).toArray := by
  rw [ofFiles]
  refine congrArg List.toArray (List.flatMap_congr ?_)
  rintro ⟨file, index⟩ hfile
  have hf := List.mem_zipIdx_iff_getElem?.mp hfile
  rw [(Vocabulary.lists_ofTexts _).size]
  refine congrArg (· ++ _) (List.map_congr_left fun lexeme hlexeme => ?_)
  rw [Vocabulary.number_ofTexts (mem_keys hf hlexeme)]

/-! ## Windows -/

theorem eq_of_map_eq_map {α β : Type} {g : α → β} {as bs : List α}
    (hinj : ∀ a ∈ as, ∀ b ∈ bs, g a = g b → a = b) (h : as.map g = bs.map g) : as = bs := by
  induction as generalizing bs with
  | nil => exact (List.map_eq_nil_iff.mp h.symm).symm
  | cons a as ih =>
    match bs with
    | [] => simp at h
    | b :: bs =>
      obtain ⟨hhead, htail⟩ := List.cons.inj h
      rw [hinj a List.mem_cons_self b List.mem_cons_self hhead,
        ih (fun x hx y hy => hinj x (List.mem_cons_of_mem a hx) y (List.mem_cons_of_mem b hy))
          htail]

section Windows

variable {files : List LexemeFile} {file file' : LexemeFile} {f f' o o' length : Nat}

/-- The codes of a window within a file are the numbers of its keys. -/
theorem take_drop_codes (hf : files[f]? = some file) (ho : o + length ≤ file.lexemes.length) :
    ((ofFiles files).codes.toList.drop (startOf files f + o)).take length
      = (file.keys o length).map fun key => Int.ofNat ((vocabulary files).number key) := by
  refine List.ext_getElem? fun t => ?_
  rw [List.getElem?_take, LexemeFile.keys, List.map_take, List.getElem?_take]
  split
  · next ht =>
    have hlexeme := List.getElem?_eq_getElem (l := file.lexemes) (i := o + t) (by omega)
    rw [List.getElem?_drop, Array.getElem?_toList, Nat.add_assoc, code_of_token hf hlexeme,
      List.getElem?_map, List.getElem?_drop, List.getElem?_map, hlexeme, Option.map_some,
      Option.map_some]
  · rfl

/-- **Windows share their codes exactly if they have the same keys.** -/
theorem le_sharedAt_iff (hf : files[f]? = some file) (ho : o + length ≤ file.lexemes.length)
    (hf' : files[f']? = some file') (ho' : o' + length ≤ file'.lexemes.length) :
    length ≤ sharedAt (ofFiles files).codes (startOf files f + o) (startOf files f' + o')
      ↔ file.keys o length = file'.keys o' length := by
  have hsize : ∀ {f o : Nat} {file : LexemeFile}, files[f]? = some file →
      o + length ≤ file.lexemes.length →
      length ≤ ((ofFiles files).codes.toList.drop (startOf files f + o)).length := by
    intro f o file hf ho
    have htake := congrArg List.length (take_drop_codes hf ho)
    rw [List.length_take, List.length_map, file.length_keys ho] at htake
    omega
  rw [sharedAt, le_common_iff, take_drop_codes hf ho, take_drop_codes hf' ho']
  constructor
  · rintro ⟨-, -, heq⟩
    refine eq_of_map_eq_map (fun a ha b hb hab => ?_) heq
    obtain ⟨x, hx, rfl⟩ := LexemeFile.exists_of_mem_keys ha
    obtain ⟨y, hy, rfl⟩ := LexemeFile.exists_of_mem_keys hb
    rw [Int.ofNat_eq_natCast, Int.ofNat_eq_natCast, Int.natCast_inj] at hab
    exact (Vocabulary.number_inj (mem_keys hf hx) (mem_keys hf' hy)).mp hab
  · intro heq
    exact ⟨hsize hf ho, hsize hf' ho', by rw [heq]⟩

/-- **A window that occurs twice lies within a file.** -/
theorem exists_window_of_shared {p q : Nat} (hne : p ≠ q) (hlength : 0 < length)
    (hshared : length ≤ sharedAt (ofFiles files).codes p q) :
    ∃ f file o, files[f]? = some file ∧ o + length ≤ file.lexemes.length
      ∧ p = startOf files f + o := by
  obtain ⟨hp, hq, htake⟩ := le_common_iff.mp hshared
  rw [List.length_drop, Array.length_toList, size_codes] at hp hq
  obtain ⟨f, file, o, hf, ho, rfl⟩ := exists_file_of_lt
    (show p < startOf files files.length by omega)
  refine ⟨f, file, o, hf, ?_, rfl⟩
  by_contra hout
  -- otherwise the separator behind the file stands in both windows
  have hcode := congrArg (fun l => l[file.lexemes.length - o]?) htake
  rw [List.getElem?_take_of_lt (by omega), List.getElem?_take_of_lt (by omega), List.getElem?_drop,
    List.getElem?_drop, Array.getElem?_toList, Array.getElem?_toList,
    show startOf files f + o + (file.lexemes.length - o) = startOf files f + file.lexemes.length by
      omega, code_of_separator hf] at hcode
  have hseparator := eq_of_code_eq_separator hf hcode.symm
  omega

end Windows

end TokenStream

end CodeClones
