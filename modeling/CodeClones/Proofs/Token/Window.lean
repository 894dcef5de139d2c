import CodeClones.Clone.Group
import CodeClones.Token.Stream
import Mathlib

/-!
# Proofs/Token/Window — windows of files and the runs that occur at them

A window is a file and an offset.  A run of keys occurs at a window that has its keys, and then
every part of the run occurs where it lies in the window (`Occurs.part`).  The clone of a window is
what a group reports of it.
-/

namespace CodeClones

/-! ## Keys -/

/-- The keys of the window of `length` lexemes from `offset` on. -/
def LexemeFile.keys (file : LexemeFile) (offset length : Nat) : List String :=
  ((file.lexemes.map Lexeme.key).drop offset).take length

theorem LexemeFile.length_keys (file : LexemeFile) {offset length : Nat}
    (h : offset + length ≤ file.lexemes.length) : (file.keys offset length).length = length := by
  rw [keys, List.length_take, List.length_drop, List.length_map]
  omega

theorem LexemeFile.exists_of_mem_keys {file : LexemeFile} {offset length : Nat} {key : String}
    (h : key ∈ file.keys offset length) : ∃ lexeme ∈ file.lexemes, lexeme.key = key :=
  List.mem_map.mp (List.mem_of_mem_drop (List.mem_of_mem_take h))

/-! ## Clones and overlaps -/

/-- **The clone of a window** — a window is a file and an offset, and its clone reports the name of
the file, the lines of its first and last token, and its length. -/
def IsCloneAt (files : List LexemeFile) (length : Nat) (window : Nat × Nat) (clone : Clone) :
    Prop :=
  ∃ file first last, files[window.1]? = some file
    ∧ window.2 + length ≤ file.lexemes.length
    ∧ file.lexemes[window.2]? = some first ∧ file.lexemes[window.2 + length - 1]? = some last
    ∧ clone = { file := file.name, startLine := first.line, endLine := last.line,
                tokenCount := Int.ofNat length }

/-- How many tokens two windows of one file have in common. -/
def overlap (length offset offset' : Nat) : Nat :=
  min offset offset' + length - max offset offset'

/-! ## Runs -/

namespace Detect

/-- **A run occurs at a window** — the window lies within its file and has the keys of the run. -/
def Occurs (files : List LexemeFile) (run : List String) (window : Nat × Nat) : Prop :=
  ∃ file, files[window.1]? = some file ∧ window.2 + run.length ≤ file.lexemes.length
    ∧ file.keys window.2 run.length = run

variable {files : List LexemeFile} {run : List String}

/-- **The keys of a window within its file** occur there. -/
theorem occurs_keys_of_le {file : LexemeFile} {f offset length : Nat} (hf : files[f]? = some file)
    (h : offset + length ≤ file.lexemes.length) :
    Occurs files (file.keys offset length) (f, offset) := by
  have hlength := file.length_keys h
  exact ⟨file, hf, hlength.symm ▸ h, by rw [hlength]⟩

/-- **A part of a run** occurs where it lies in the windows of the run. -/
theorem Occurs.part {window : Nat × Nat} (h : Occurs files run window) {start length : Nat}
    (hfits : start + length ≤ run.length) :
    Occurs files ((run.drop start).take length) (window.1, window.2 + start) := by
  obtain ⟨file, hfile, hwithin, hkeys⟩ := h
  have hpart : (run.drop start).take length = file.keys (window.2 + start) length := by
    rw [← hkeys, LexemeFile.keys, List.drop_take, List.drop_drop, List.take_take,
      Nat.min_eq_left (by omega), LexemeFile.keys]
  rw [hpart]
  exact occurs_keys_of_le hfile (by omega)

end Detect

end CodeClones
