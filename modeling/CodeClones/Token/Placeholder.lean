import CodeClones.Token.Basic
import Std.Data.HashSet

/-!
# Token/Placeholder — forgetting names and values

Copies that differ in names and constants only become equal once identifiers and literals are
replaced by placeholders.  A `Normalizer` says what is replaced; well-known type and function names
are kept, so that unrelated code does not collapse.
-/

namespace CodeClones

/-- A token after replacement, with what it was before. -/
structure NormalizedToken where
  normalized : String
  written : String
  kind : TokenKind
  line : Int
  column : Int
deriving DecidableEq, Repr

structure NormalizedFile where
  name : String
  tokens : Array NormalizedToken
  lines : Array String := #[]
deriving DecidableEq, Repr

namespace Placeholder

def identifier : String := "$ID"
def text : String := "$STR"
def number : String := "$NUM"
def parameter : String := "$PARAM"

end Placeholder

/-- `$0`, `$12`: a parameter named by its position. -/
def isPositionalParameter (text : String) : Bool :=
  match text.toList with
  | '$' :: digit :: digits => (digit :: digits).all Char.isDigit
  | _ => false

/-- A literal that starts with a digit, a sign or a point is a number. -/
def isNumericLiteral (text : String) : Bool :=
  match text.toList with
  | [] => false
  | c :: _ => c.isDigit || c == '-' || c == '.'

/-- The identifiers that are kept when nothing else is asked for, in ascending order. -/
def defaultKept : List String :=
  ["Any", "AnyObject", "Array", "Bool", "Dictionary", "Double", "Error", "Float", "Int", "Optional",
    "Result", "Self", "Set", "String", "Void", "assert", "false", "fatalError", "nil",
    "precondition", "print", "self", "super", "true"]

/-- Which identifiers are kept, and which classes of token are replaced at all. -/
structure Normalizer where
  kept : Std.HashSet String := Std.HashSet.ofList defaultKept
  identifiers : Bool := true
  literals : Bool := true
  parameters : Bool := true

namespace Normalizer

/-- **The text that stands for a token.** -/
def replace (normalizer : Normalizer) (token : Token) : String :=
  match token.kind with
  | .identifier =>
    if normalizer.parameters && isPositionalParameter token.text then Placeholder.parameter
    else if normalizer.identifiers && !normalizer.kept.contains token.text then
      Placeholder.identifier
    else token.text
  | .literal =>
    if normalizer.literals then
      if isNumericLiteral token.text then Placeholder.number else Placeholder.text
    else token.text
  | _ => token.text

def normalizeToken (normalizer : Normalizer) (token : Token) : NormalizedToken where
  normalized := normalizer.replace token
  written := token.text
  kind := token.kind
  line := token.line
  column := token.column

/-- Token by token; places and lines stay. -/
def normalize (normalizer : Normalizer) (file : SourceFile) : NormalizedFile where
  name := file.name
  tokens := file.tokens.map normalizer.normalizeToken
  lines := file.lines

@[simp] theorem size_normalize (normalizer : Normalizer) (file : SourceFile) :
    (normalizer.normalize file).tokens.size = file.tokens.size :=
  Array.size_map

end Normalizer

end CodeClones
