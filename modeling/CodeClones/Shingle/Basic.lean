import CodeClones.Hash.Word
import CodeClones.Order.Distinct
import CodeClones.Order.Positive
import CodeClones.Text.Bytes
import CodeClones.Token.Basic
import CodeClones.Token.Vocabulary

/-!
# Shingle/Basic — overlapping windows of tokens as a set of hashes

A text is compared by its shingles: the windows of `size` consecutive tokens, each reduced to a
hash.  Identifiers and literals are first renamed in the order in which they appear, so consistent
renaming leaves the shingles unchanged.
-/

namespace CodeClones

namespace Shingle

/-- The byte that closes each token.  No UTF-8 text contains it, so token borders are
unambiguous. -/
def closing : UInt8 := 0xFF

/-- **The hash of a window** — FNV-1a over the bytes of its tokens, each followed by the closing
byte as a word. -/
def hashOfBytes (tokens : List (List UInt8)) : UInt64 :=
  tokens.foldl (fun hash token => Hash.absorb (Hash.absorbBytes hash token) closing.toUInt64)
    Hash.basis

/-- The hash of a window of texts. -/
def hashOf (tokens : List String) : UInt64 :=
  hashOfBytes (tokens.map Text.bytes)

/-- Every window of `size` consecutive entries, from left to right. -/
def windows {α : Type} (size : Nat) (entries : Array α) : List (List α) :=
  (List.range (entries.size + 1 - size)).map fun start =>
    (entries.extract start (start + size)).toList

/-- The texts of the tokens of one kind. -/
def textsOfKind (kind : TokenKind) (tokens : List String) (kinds : List TokenKind) :
    List String :=
  ((tokens.zip kinds).filter fun entry => entry.2 = kind).map Prod.fst

/-- A placeholder for the text that was seen `number - 1` others before. -/
def placeholder (label : String) (number : Nat) : String :=
  label ++ toString (number - 1)

/-- **Consistent renaming** — identifiers and literals are numbered, each in the order of first
sight; everything else stays. -/
def rename (tokens : List String) (kinds : List TokenKind) : List String :=
  let identifiers := Vocabulary.ofTexts (textsOfKind .identifier tokens kinds)
  let literals := Vocabulary.ofTexts (textsOfKind .literal tokens kinds)
  (tokens.zip kinds).map fun (text, kind) =>
    match kind with
    | .identifier => placeholder "$ID" (identifiers.number text)
    | .literal => placeholder "$LIT" (literals.number text)
    | _ => text

end Shingle

/-- A window with its hash and the position at which it starts. -/
structure Shingle where
  hash : UInt64
  position : Nat
  tokens : List String
deriving DecidableEq, Repr

/-- How shingles are taken: how long they are, and whether names and values are renamed first. -/
structure Shingler where
  size : Nat
  renames : Bool
  positive : 0 < size

namespace Shingler

/-- A shingle has at least one token. -/
def ofSize (size : Nat) (renames : Bool) : Shingler where
  size := Order.atLeastOne size
  renames := renames
  positive := Order.atLeastOne_pos size

/-- The texts that are hashed: renamed if that is asked for and every token has a kind. -/
def prepare (shingler : Shingler) (tokens : List String) (kinds : List TokenKind) :
    List String :=
  if shingler.renames && kinds.length == tokens.length then Shingle.rename tokens kinds
  else tokens

/-- **The shingles of a text** from left to right; none if it is shorter than a shingle. -/
def shingles (shingler : Shingler) (tokens : List String) (kinds : List TokenKind) :
    List Shingle :=
  (Shingle.windows shingler.size (shingler.prepare tokens kinds).toArray).zipIdx.map
    fun (window, position) => ⟨Shingle.hashOf window, position, window⟩

/-- **The set of shingle hashes** in ascending order. -/
def hashes (shingler : Shingler) (tokens : List String) (kinds : List TokenKind) :
    List UInt64 :=
  let coded := ((shingler.prepare tokens kinds).map Text.bytes).toArray
  Order.ascendingWords ((Shingle.windows shingler.size coded).map Shingle.hashOfBytes)

end Shingler

/-- The hashes of all windows of `size` bytes of a text, in ascending order; an empty window is
never taken. -/
def Shingle.ofCharacters (size : Nat) (text : String) : List UInt64 :=
  if size = 0 then []
  else Order.ascendingWords
    ((Shingle.windows size (Text.bytes text).toArray).map (Hash.absorbBytes Hash.basis))

end CodeClones
