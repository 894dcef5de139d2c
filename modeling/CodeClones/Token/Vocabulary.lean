import Std.Data.HashMap

/-!
# Token/Vocabulary — numbering texts in the order of first sight

A vocabulary numbers the distinct texts it has seen from one upwards, in the order in which they
were first seen.  Number zero is never given.
-/

namespace CodeClones

/-- The numbers given so far. -/
structure Vocabulary where
  numbers : Std.HashMap String Nat

namespace Vocabulary

def empty : Vocabulary := ⟨∅⟩

/-- How many distinct texts have been seen. -/
def size (vocabulary : Vocabulary) : Nat :=
  vocabulary.numbers.size

/-- A known text keeps its number; a new one takes the next. -/
def see (vocabulary : Vocabulary) (text : String) : Vocabulary :=
  if vocabulary.numbers.contains text then vocabulary
  else ⟨vocabulary.numbers.insert text (vocabulary.size + 1)⟩

/-- The vocabulary of a sequence of texts. -/
def ofTexts (texts : List String) : Vocabulary :=
  texts.foldl see empty

/-- The number of a text, zero if it was never seen. -/
def number (vocabulary : Vocabulary) (text : String) : Nat :=
  vocabulary.numbers.getD text 0

/-- **The number code of a sequence** — equal numbers stand for equal texts. -/
def encode (texts : List String) : List Nat :=
  texts.map (ofTexts texts).number

end Vocabulary

end CodeClones
