import CodeClones.Proofs.Order.Distinct
import CodeClones.Shingle.Basic

/-!
# Proofs/Shingle/Window — windows, shingles and hashes of one text

A shingle is a window with its hash and the place where it starts (`shingles_eq`).  The hashes
are taken from the bytes of the texts without keeping the windows; they are those of the shingles
(`mem_hashes_iff`), each once and in ascending order (`pairwise_hashes`).  Renaming keeps the number
of texts, so there are none exactly if the text is shorter than a shingle (`hashes_eq_nil_iff`).
-/

namespace CodeClones

namespace Shingle

variable {α β : Type}

/-- **The windows** are the stretches of a length that lie inside. -/
theorem windows_eq (size : Nat) (entries : List α) :
    windows size entries.toArray = (List.range (entries.length + 1 - size)).map fun start =>
      (entries.drop start).take size := by
  simp only [windows, List.size_toArray, List.extract_toArray, List.extract_eq_take_drop,
    Nat.add_sub_cancel_left]

/-- Windows of what the entries are mapped to. -/
theorem windows_map (f : α → β) (size : Nat) (entries : List α) :
    windows size (entries.map f).toArray = (windows size entries.toArray).map (List.map f) := by
  rw [windows_eq, windows_eq, List.length_map, List.map_map]
  refine List.map_congr_left fun start _ => ?_
  rw [Function.comp_apply, List.map_take, List.map_drop]

end Shingle

namespace Shingler

open Shingle

/-- **The shingles of a text** — one for each window, with the place where it starts. -/
theorem shingles_eq (shingler : Shingler) (tokens : List String) (kinds : List TokenKind) :
    let texts := shingler.prepare tokens kinds
    let window := fun start => (texts.drop start).take shingler.size
    shingler.shingles tokens kinds = (List.range (texts.length + 1 - shingler.size)).map
      fun start => ⟨hashOf (window start), start, window start⟩ := by
  intro texts window
  rw [shingles, windows_eq]
  refine List.ext_getElem? fun index => ?_
  rw [List.getElem?_map, List.getElem?_zipIdx, List.getElem?_map, List.getElem?_map]
  rcases Nat.lt_or_ge index (texts.length + 1 - shingler.size) with hlt | hge
  · rw [List.getElem?_range hlt, Option.map_some, Option.map_some, Option.map_some, Option.map_some,
      Nat.zero_add]
  · rw [List.getElem?_eq_none (by rwa [List.length_range])]
    rfl

/-- **The hashes are those of the shingles.** -/
theorem mem_hashes_iff {shingler : Shingler} {tokens : List String} {kinds : List TokenKind}
    {hash : UInt64} : hash ∈ shingler.hashes tokens kinds
      ↔ ∃ shingle ∈ shingler.shingles tokens kinds, shingle.hash = hash := by
  rw [hashes, Order.ascendingWords, Order.mem_ascending, windows_map, windows_eq, shingles_eq,
    ← List.mem_map]
  simp only [List.map_map]
  rfl

/-- Renaming keeps the number of texts. -/
theorem length_prepare {shingler : Shingler} {tokens : List String} {kinds : List TokenKind} :
    (shingler.prepare tokens kinds).length = tokens.length := by
  rw [prepare]
  split
  · next hrenames =>
    have hlength := eq_of_beq (Bool.and_eq_true_iff.mp hrenames).2
    rw [Shingle.rename, List.length_map, List.length_zip, hlength, Nat.min_self]
  · rfl

/-- **No hashes** if the text is shorter than a shingle, and only then. -/
theorem hashes_eq_nil_iff {shingler : Shingler} {tokens : List String} {kinds : List TokenKind} :
    shingler.hashes tokens kinds = [] ↔ tokens.length < shingler.size := by
  have hshingles : shingler.hashes tokens kinds = [] ↔ shingler.shingles tokens kinds = [] := by
    simp only [List.eq_nil_iff_forall_not_mem, mem_hashes_iff, not_exists, not_and]
    exact ⟨fun h shingle hshingle => h _ shingle hshingle rfl, fun h _ shingle hshingle =>
      absurd hshingle (h shingle)⟩
  rw [hshingles, shingles_eq, List.map_eq_nil_iff, List.range_eq_nil, length_prepare]
  omega

/-- **Each hash once, in ascending order.** -/
theorem pairwise_hashes (shingler : Shingler) (tokens : List String) (kinds : List TokenKind) :
    (shingler.hashes tokens kinds).Pairwise (· < ·) :=
  Order.pairwise_ascendingWords _

end Shingler

/-- Hashes of characters are ascending, too. -/
theorem Shingle.pairwise_ofCharacters (size : Nat) (text : String) :
    (ofCharacters size text).Pairwise (· < ·) := by
  rw [ofCharacters]
  split
  · exact List.Pairwise.nil
  · exact Order.pairwise_ascendingWords _

end CodeClones
