import CodeClones.Order.Boundary
import CodeClones.Order.Distinct
import CodeClones.Suffix.Reduction
import CodeClones.Token.Vocabulary

/-!
# Suffix/Array — the suffix array of an integer sequence

`sortSuffixes?` sorts by recursion on the reduced sequence; short sequences are sorted directly.
`suffixArray` first brings the symbols into the range `0, …, top` that bucket sorting needs.
-/

namespace CodeClones.Suffix

/-- Below this size suffixes are sorted by comparison. -/
def directSize : Nat := 32

/-- Sorting by comparison of whole suffixes. -/
def sortDirectly (symbols : Array Nat) : Array Nat :=
  ((List.range symbols.size).mergeSort fun i j => !natBefore symbols j i).toArray

/-- **Sorting by induction** — valleys are sorted through the reduced sequence, which is shorter,
and induce the order of all suffixes.  `top` bounds the symbols. -/
def sortSuffixes? (symbols : Array Nat) (top : Nat) : Option (Array Nat) :=
  if symbols.size = 0 then some #[]
  else if symbols.size = 1 then some #[0]
  else if symbols.size = 2 then do
    let first ← symbols[0]?
    let second ← symbols[1]?
    return if first < second then #[0, 1] else #[1, 0]
  else if symbols.size < directSize then some (sortDirectly symbols)
  else do
    let layout := Layout.ofSymbols symbols top
    let text := valleys layout.rises
    let places := placesIn symbols.size text
    let rough ← induce? layout text
    if text.isEmpty then return rough
    else
      let stretches := rough.toList.filter (isValley layout.rises)
      let (reduced, topName) ← reduce? symbols text.toArray places stretches
      if _shorter : reduced.size < symbols.size then
        let order ← sortSuffixes? reduced topName
        let sorted ← order.toList.mapM fun k => text.toArray[k]?
        induce? layout sorted
      else none
termination_by symbols.size

/-- The rank of a symbol among the distinct ones. -/
def rankIn (alphabet : Array Int) (symbol : Int) : Nat :=
  Order.boundary (fun k => alphabet[k]?.any fun a => decide (a < symbol)) 0 alphabet.size

/-- **Symbols as small numbers in the same order** — kept if they are small and not negative,
otherwise replaced by their ranks; with the largest number used. -/
def compress (text : Array Int) : Array Nat × Nat :=
  let least := text.foldl (fun a b => if b < a then b else a) (text[0]?.getD 0)
  let greatest := text.foldl (fun a b => if a < b then b else a) (text[0]?.getD 0)
  if 0 ≤ least ∧ greatest ≤ 2 * Int.ofNat text.size + 1024 then
    (text.map Int.toNat, greatest.toNat)
  else
    let alphabet := (Order.ascending (fun a b => decide (a ≤ b)) text.toList).toArray
    (text.map (rankIn alphabet), alphabet.size - 1)

/-- **The suffix array** — the positions of the text in the order of their suffixes. -/
def suffixArray (text : Array Int) : Array Nat :=
  if text.isEmpty then #[]
  else
    let (symbols, top) := compress text
    (sortSuffixes? symbols top).getD #[]

end CodeClones.Suffix

namespace CodeClones

/-- A text together with its suffix array. -/
structure SuffixArray where
  text : Array Int
  order : Array Nat

namespace SuffixArray

def ofText (text : Array Int) : SuffixArray where
  text := text
  order := Suffix.suffixArray text

/-- Strings as numbers from one upwards, equal strings alike. -/
def codesOfStrings (tokens : List String) : Array Int :=
  ((Vocabulary.encode tokens).map Int.ofNat).toArray

def ofStrings (tokens : List String) : SuffixArray :=
  ofText (codesOfStrings tokens)

def size (suffixes : SuffixArray) : Nat :=
  suffixes.order.size

end SuffixArray

end CodeClones
