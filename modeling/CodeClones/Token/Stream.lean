import CodeClones.Token.Placeholder
import CodeClones.Token.Vocabulary

/-!
# Token/Stream — all files as one sequence of numbers

The files are laid end to end and every token is replaced by the number of its text.  After each
file stands a separator whose number is larger than every token number and differs from that of
every other separator, so a repeat never runs across the end of a file.
-/

namespace CodeClones

/-- Where a position of the stream comes from.  Separators have line `-1`. -/
structure Place where
  file : Nat
  line : Int
  column : Int
deriving DecidableEq, Repr

/-- A token as the stream sees it: the key it is compared by, the text it is shown by, and where it
stands. -/
structure Lexeme where
  key : String
  shown : String
  line : Int
  column : Int
deriving DecidableEq, Repr

/-- A named sequence of lexemes. -/
structure LexemeFile where
  name : String
  lexemes : List Lexeme
deriving DecidableEq, Repr

/-- Tokens are compared and shown by their text. -/
def SourceFile.lexemes (file : SourceFile) : LexemeFile where
  name := file.name
  lexemes := file.tokens.toList.map fun token =>
    { key := token.text, shown := token.text, line := token.line, column := token.column }

/-- Normalized tokens are compared by what replaced them and shown as they were. -/
def NormalizedFile.lexemes (file : NormalizedFile) : LexemeFile where
  name := file.name
  lexemes := file.tokens.toList.map fun token =>
    { key := token.normalized, shown := token.written, line := token.line, column := token.column }

/-- The files laid end to end. -/
structure TokenStream where
  codes : Array Int
  places : Array Place
  texts : Array String
  files : Array String
  vocabularySize : Nat
deriving Repr

namespace TokenStream

/-- What a separator is shown as. -/
def separatorText : String := "<SEP>"

/-- **The stream of a list of files.** -/
def ofFiles (files : List LexemeFile) : TokenStream :=
  let vocabulary := Vocabulary.ofTexts (files.flatMap fun file => file.lexemes.map Lexeme.key)
  { codes := (files.zipIdx.flatMap fun (file, index) =>
      file.lexemes.map (fun lexeme => Int.ofNat (vocabulary.number lexeme.key))
        ++ [Int.ofNat (vocabulary.size + 1 + index)]).toArray
    places := (files.zipIdx.flatMap fun (file, index) =>
      file.lexemes.map (fun lexeme => Place.mk index lexeme.line lexeme.column)
        ++ [Place.mk index (-1) (-1)]).toArray
    texts := (files.flatMap fun file =>
      file.lexemes.map Lexeme.shown ++ [separatorText]).toArray
    files := (files.map LexemeFile.name).toArray
    vocabularySize := vocabulary.size }

def size (stream : TokenStream) : Nat :=
  stream.codes.size

/-- A position is a separator if its line is negative. -/
def isSeparator (stream : TokenStream) (position : Nat) : Bool :=
  match stream.places[position]? with
  | some place => decide (place.line < 0)
  | none => false

end TokenStream

end CodeClones
