import CodeClones.Clone.Group
import CodeClones.Order.Positive
import CodeClones.Parallel.Gate
import CodeClones.Similarity.Overlap

/-!
# Engine/Settings — what is to be detected, and how

Settings can be checked (`check`), which names the first value out of bounds, or brought into bounds
(`clamped`).  A run always uses clamped settings.
-/

namespace CodeClones

open Parallel

/-- How exact and near clones are found. -/
inductive Algorithm where
  | suffixArray
  | rollingHash
deriving DecidableEq, Repr

namespace Algorithm

def name : Algorithm → String
  | suffixArray => "suffixArray"
  | rollingHash => "rollingHash"

/-- The algorithm of a name, if there is one. -/
def ofName? : String → Option Algorithm
  | "suffixArray" => some suffixArray
  | "rollingHash" => some rollingHash
  | _ => none

theorem ofName?_name (algorithm : Algorithm) : ofName? algorithm.name = some algorithm := by
  cases algorithm <;> rfl

end Algorithm

/-- What a run looks for. -/
structure Settings where
  minimumTokens : Nat := 50
  kinds : List CloneKind := [.exact]
  algorithm : Algorithm := .suffixArray
  minimumSimilarity : Float := 0.8
  shingleSize : Nat := 5
  signatureSize : Nat := 128
  seed : UInt64 := 42
  mode : Mode := .safe
  quotesSource : Bool := true

/-- A value out of bounds. -/
inductive SettingsError where
  | minimumTokens
  | minimumSimilarity
  | shingleSize
  | signatureSize
deriving DecidableEq, Repr

namespace Settings

/-- A minimum of more tokens than this does not fit a token offset. -/
def maxMinimumTokens : Nat := 2147483647

def maxShingleSize : Nat := 1024

def maxSignatureSize : Nat := 4096

/-- Check the two sizes of a sketch. -/
def checkSketch (shingleSize signatureSize : Nat) : Except SettingsError Unit :=
  if shingleSize < 1 ∨ maxShingleSize < shingleSize then .error .shingleSize
  else if signatureSize < 1 ∨ maxSignatureSize < signatureSize then .error .signatureSize
  else .ok ()

/-- **Check the settings** — the first value out of bounds is the error. -/
def check (settings : Settings) : Except SettingsError Unit :=
  if maxMinimumTokens < settings.minimumTokens then .error .minimumTokens
  else if !(decide (0 ≤ settings.minimumSimilarity) && decide (settings.minimumSimilarity ≤ 1)) then
    .error .minimumSimilarity
  else checkSketch settings.shingleSize settings.signatureSize

/-- Into the range from one to a largest size. -/
def clampSize (largest size : Nat) : Nat :=
  Order.atLeastOne (Nat.min largest size)

/-- **Within bounds** — similarity in the unit interval, sketch sizes between one and their
maximum. -/
def clamped (settings : Settings) : Settings :=
  { settings with
    minimumSimilarity := clampUnit settings.minimumSimilarity
    shingleSize := clampSize maxShingleSize settings.shingleSize
    signatureSize := clampSize maxSignatureSize settings.signatureSize }

/-- Is a kind of clone asked for? -/
def wants (settings : Settings) (kind : CloneKind) : Bool :=
  settings.kinds.contains kind

end Settings

/-- The text of an error. -/
def SettingsError.message : SettingsError → String
  | minimumTokens => "minimumTokens is too large"
  | minimumSimilarity => "minimumSimilarity must be between 0 and 1"
  | shingleSize => s!"shingleSize must be between 1 and {Settings.maxShingleSize}"
  | signatureSize => s!"numHashes must be between 1 and {Settings.maxSignatureSize}"

end CodeClones
