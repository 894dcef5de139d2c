import CodeClones.Clone.Group
import CodeClones.Clone.Location
import CodeClones.Repeat.Group
import CodeClones.Token.Stream

/-!
# Clone/Assembly — from repeats of the stream to clone groups

A repeat is a set of stream positions.  Those that lie within one file become locations, crowded
ones are dropped, and at least two must remain for a group.
-/

namespace CodeClones

/-- Positions of equal windows of the stream.  Positions and length may be anything; what does not
fit the stream is passed over. -/
structure Occurrences where
  positions : List Int
  length : Int
deriving DecidableEq, Repr

def Repeat.occurrences (found : Repeat) : Occurrences where
  positions := found.positions.map Int.ofNat
  length := Int.ofNat found.length

namespace TokenStream

/-- **The location of a window** — if it is not empty, within the stream, and begins and ends in one
file at no separator. -/
def location? (stream : TokenStream) (position length : Int) : Option Location :=
  if position < 0 ∨ length ≤ 0 then none
  else
    match stream.places[position.toNat]?, stream.places[(position + length - 1).toNat]? with
    | some first, some last =>
      if first.file = last.file ∧ 0 ≤ first.line ∧ 0 ≤ last.line then
        some ⟨first.file, first.line, last.line, position, position + length - 1⟩
      else none
    | _, _ => none

def isWithinFile (stream : TokenStream) (position length : Int) : Bool :=
  (stream.location? position length).isSome

/-- A fingerprint quotes at most this many tokens. -/
def fingerprintTokens : Int := 20

/-- An integer as an offset of 64 bits; a negative one is a very large offset. -/
def offset (position : Int) : Nat :=
  (position % 18446744073709551616).toNat

/-- **The fingerprint of a window** — the texts of its first tokens, joined by spaces.  Offsets wrap
at 64 bits before they are cut to the stream, so for a window of negative length the quotation can
run to the end of the stream. -/
def fingerprint (stream : TokenStream) (position length : Int) : String :=
  let quoted := if length < fingerprintTokens then length else fingerprintTokens
  String.intercalate " "
    (stream.texts.extract (offset position) (offset (position + quoted))).toList

/-- The clone at a location. -/
def cloneAt (stream : TokenStream) (length : Int) (location : Location) : Clone where
  file := stream.files[location.file]?.getD ""
  startLine := location.startLine
  endLine := location.endLine
  tokenCount := length

/-- **The group of a repeat** — if two occurrences remain after thinning.  The fingerprint is that
of the first occurrence in the order given. -/
def group? (stream : TokenStream) (kind : CloneKind) (found : Occurrences) :
    Option (CloneGroup Float) :=
  let located := found.positions.filterMap fun position => stream.location? position found.length
  match located with
  | first :: _ :: _ =>
    let kept := Location.thin located
    if kept.length < 2 then none
    else some
      { kind := kind
        clones := kept.map (stream.cloneAt found.length)
        similarity := 1
        fingerprint := stream.fingerprint first.start found.length }
  | _ => none

/-- The groups of some repeats, one for each key. -/
def assemble (stream : TokenStream) (kind : CloneKind) (found : List Occurrences) :
    List (CloneGroup Float) :=
  distinctGroups (found.filterMap (stream.group? kind))

end TokenStream

end CodeClones
