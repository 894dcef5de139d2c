import CodeClones.Engine.Settings
import CodeClones.Repeat.Group
import CodeClones.Script.Error
import CodeClones.Script.Value
import CodeClones.Sketch.Bytes
import CodeClones.Sketch.Signature

/-!
# Script/Read — from script values to the library's own types

Arguments are read in a fixed order and the first one that does not fit is the error.  Optional
settings keep their default when they are absent.
-/

namespace CodeClones.Script

open Parallel

/-- The largest integer up to which every integer is a double of its own. -/
def maxSafeInteger : Int := 9007199254740991

/-- An optional integer setting. -/
def readInteger (options : Value) (key : String) (least greatest standard : Int) :
    Except CallError Int :=
  match options.property key with
  | .undefined => .ok standard
  | value =>
    match value.integerIn? least greatest with
    | some n => .ok n
    | none => .error (.notInteger key least greatest)

/-- The settings of a sketch. -/
structure SketchOptions where
  shingleSize : Nat := 5
  signatureSize : Nat := 128
  seed : UInt64 := 42

/-- **Read the settings of a sketch.** -/
def readSketch (options : Value) : Except CallError SketchOptions := do
  let shingleSize ← readInteger options "shingleSize" 1 (Int.ofNat Settings.maxShingleSize) 5
  let signatureSize ← readInteger options "numHashes" 1 (Int.ofNat Settings.maxSignatureSize) 128
  let seed ← readInteger options "seed" 0 maxSafeInteger 42
  (Settings.checkSketch shingleSize.toNat signatureSize.toNat).mapError CallError.settings
  return ⟨shingleSize.toNat, signatureSize.toNat, UInt64.ofNat seed.toNat⟩

/-- Sketch settings from an argument; whatever is not an object leaves the defaults. -/
def readSketchArgument (argument : Value) : Except CallError SketchOptions :=
  if argument.isObject then readSketch argument else .ok {}

def tokenKindOfName : String → TokenKind
  | "identifier" => .identifier
  | "keyword" => .keyword
  | "literal" => .literal
  | "operator" => .operator
  | "punctuation" => .punctuation
  | _ => .unknown

/-- The kind that a value names; anything else is unknown. -/
def readTokenKind : Value → TokenKind
  | .text name => tokenKindOfName name
  | _ => .unknown

/-- A line or column; one if it is not a number. -/
def readPlace : Value → Int
  | .number x => Exact.signed32 x
  | _ => 1

def readToken (value : Value) : Except CallError Token :=
  if value.isObject then
    match value.property "text" with
    | .text text => .ok
        { kind := readTokenKind (value.property "kind")
          text := text
          line := readPlace (value.property "line")
          column := readPlace (value.property "column") }
    | _ => .error .tokenWithoutText
  else .error .tokenNotObject

/-- A source line; what is not a text is an empty line. -/
def readLine : Value → String
  | .text line => line
  | _ => ""

def readLines : Value → Array String
  | .list lines => (lines.map readLine).toArray
  | _ => #[]

/-- **Read a file** — its name, tokens and, if present, its lines. -/
def readFile (value : Value) : Except CallError SourceFile :=
  if value.isObject then
    match value.property "file", value.property "tokens" with
    | .text name, .list tokens => do
      let tokens ← tokens.mapM readToken
      return { name := name, tokens := tokens.toArray,
               lines := readLines (value.property "sourceLines") }
    | _, _ => .error .fileIncomplete
  else .error .fileNotObject

/-- A name to be looked up; what is not a text has the empty name. -/
def readName : Value → String
  | .text name => name
  | _ => ""

def readCloneKind (value : Value) : Except CallError CloneKind :=
  match CloneKind.ofName? (readName value) with
  | some kind => .ok kind
  | none => .error (.unknownCloneKind (readName value))

def readSimilarity (standard : Float) : Value → Except CallError Float
  | .undefined => .ok standard
  | .number x => .ok x
  | _ => .error .similarityNotNumber

def readMode (standard : Mode) : Value → Except CallError Mode
  | .text name =>
    match Mode.ofName? name with
    | some mode => .ok mode
    | none => .error (.unknownMode name)
  | _ => .ok standard

def readAlgorithm (standard : Algorithm) : Value → Except CallError Algorithm
  | .undefined => .ok standard
  | value =>
    match Algorithm.ofName? (readName value) with
    | some algorithm => .ok algorithm
    | none => .error (.unknownAlgorithm (readName value))

def readCloneKinds (standard : List CloneKind) : Value → Except CallError (List CloneKind)
  | .list values => values.mapM readCloneKind
  | _ => .ok standard

def readFlag (standard : Bool) : Value → Bool
  | .bool value => value
  | _ => standard

/-- **Read the settings of a detection** and check them. -/
def readSettings (options : Value) : Except CallError Settings := do
  let standard : Settings := {}
  let minimumTokens ← readInteger options "minimumTokens" 0 (Int.ofNat Settings.maxMinimumTokens)
    (Int.ofNat standard.minimumTokens)
  let minimumSimilarity ← readSimilarity standard.minimumSimilarity
    (options.property "minimumSimilarity")
  let sketch ← readSketch options
  let mode ← readMode standard.mode (options.property "parallelMode")
  let algorithm ← readAlgorithm standard.algorithm (options.property "algorithm")
  let kinds ← readCloneKinds standard.kinds (options.property "cloneTypes")
  let settings : Settings :=
    { minimumTokens := minimumTokens.toNat
      kinds := kinds
      algorithm := algorithm
      minimumSimilarity := minimumSimilarity
      shingleSize := sketch.shingleSize
      signatureSize := sketch.signatureSize
      seed := sketch.seed
      mode := mode
      quotesSource := readFlag standard.quotesSource (options.property "includeSnippets") }
  settings.check.mapError CallError.settings
  return settings

/-- Detection settings from an argument; whatever is not an object leaves the defaults. -/
def readSettingsArgument (argument : Value) : Except CallError Settings :=
  if argument.isObject then readSettings argument else .ok {}

/-- A number or a text of a token sequence. -/
def readCode : Value → Except CallError (Sum Int String)
  | .number x => .ok (.inl (Exact.signed32 x))
  | .text text => .ok (.inr text)
  | _ => .error .codeNotScalar

/-- The numbers among some codes. -/
def numbersOf (codes : List (Sum Int String)) : List Int :=
  codes.filterMap fun
    | .inl n => some n
    | .inr _ => none

/-- The texts among some codes. -/
def textsOf (codes : List (Sum Int String)) : List String :=
  codes.filterMap fun
    | .inl _ => none
    | .inr text => some text

/-- **Read a token sequence** — 32-bit integers, or texts that are numbered, but not both. -/
def readCodes : Value → Except CallError (Array Int)
  | .int32s items => .ok items.toArray
  | .doubles _ => .error .codesNotInt32
  | .buffer _ => .error .codesNotInt32
  | .list items => do
    let codes ← items.mapM readCode
    let numbers := numbersOf codes
    let texts := textsOf codes
    if texts.isEmpty then return numbers.toArray
    else if numbers.isEmpty then return SuffixArray.codesOfStrings texts
    else throw .codesMixed
  | _ => .error .codesNotArray

/-- The slots of a signature in a buffer. -/
def readSlots (bytes : List UInt8) : Except CallError (Array UInt64) :=
  match SlotBytes.decode? bytes with
  | some slots => .ok slots.toArray
  | none => .error .signatureLength

end CodeClones.Script
