/-!
# Token/Basic — tokens and the files they come from

A file enters as the sequence of its tokens together with its raw lines; the lines serve only to
quote the text of a clone.  Lines and columns count from one.
-/

namespace CodeClones

inductive TokenKind where
  | identifier
  | keyword
  | literal
  | operator
  | punctuation
  | unknown
deriving DecidableEq, Repr

structure Token where
  kind : TokenKind
  text : String
  line : Int
  column : Int
deriving DecidableEq, Repr

/-- A file: its name, its tokens in order, and its raw lines. -/
structure SourceFile where
  name : String
  tokens : Array Token
  lines : Array String := #[]
deriving DecidableEq, Repr

/-- **The text between two lines**, both included, joined by line breaks.  Bounds outside the file
are clamped; an empty range is quoted as the empty text. -/
def snippet (lines : Array String) (first last : Int) : String :=
  String.intercalate "\n" (lines.extract (first - 1).toNat last.toNat).toList

namespace SourceFile

def texts (file : SourceFile) : Array String :=
  file.tokens.map Token.text

def kinds (file : SourceFile) : Array TokenKind :=
  file.tokens.map Token.kind

/-- The tokens from `start` up to, not including, `stop`. -/
def window (file : SourceFile) (start stop : Nat) : Array Token :=
  file.tokens.extract start stop

end SourceFile

end CodeClones
