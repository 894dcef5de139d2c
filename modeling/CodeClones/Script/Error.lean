import CodeClones.Engine.Settings

/-!
# Script/Error — why a call is refused

Each way in which a call can fail is a constructor; `message` is the text that the script sees.
-/

namespace CodeClones.Script

/-- Whether the script passed a wrong argument, or asked for something that is not there. -/
inductive ErrorKind where
  | wrongType
  | general
deriving DecidableEq, Repr

inductive CallError where
  | filesExpected
  | fileNotObject
  | fileIncomplete
  | tokenNotObject
  | tokenWithoutText
  | notInteger (key : String) (least greatest : Int)
  | similarityNotNumber
  | settings (error : SettingsError)
  | unknownMode (name : String)
  | unknownAlgorithm (name : String)
  | unknownCloneKind (name : String)
  | unknownLevel (name : String)
  | codesMissing
  | codesNotInt32
  | codesNotArray
  | codeNotScalar
  | codesMixed
  | repeatArguments
  | textsExpected
  | textPairExpected
  | thresholdMissing
  | thresholdOutOfRange
  | bandsOutOfRange
  | rowsOutOfRange
  | handleNotNumber
  | unknownHandle
  | handleExpected
  | signatureArguments
  | signaturesArguments
  | queryArguments
  | signatureNotBuffer
  | signatureLength
  | signaturesNotArray
  | signaturesNotBuffers
  | thresholdNotNumber
  | probesNotInteger
  | levelExpected
deriving DecidableEq, Repr

namespace CallError

/-- Everything is a wrong argument but a handle that stands for no index. -/
def kind : CallError → ErrorKind
  | unknownHandle => .general
  | _ => .wrongType

def message : CallError → String
  | filesExpected => "First argument must be an Array of files"
  | fileNotObject => "Each file must be an object"
  | fileIncomplete => "Each file needs a string 'file' and an array 'tokens'"
  | tokenNotObject => "Tokens must be objects"
  | tokenWithoutText => "Token 'text' must be a string"
  | notInteger key least greatest =>
    "'" ++ key ++ "' must be an integer between " ++ toString least ++ " and " ++ toString greatest
  | similarityNotNumber => "'minimumSimilarity' must be a number"
  | settings error => error.message
  | unknownMode name => "Unknown parallelMode: " ++ name
  | unknownAlgorithm name => "Unknown algorithm: " ++ name
  | unknownCloneKind name => "Unknown clone type: " ++ name
  | unknownLevel name => "Unknown log level: " ++ name
  | codesMissing => "Expected 1 argument: tokens"
  | codesNotInt32 => "Typed token arrays must be Int32Array"
  | codesNotArray => "Tokens must be an Array or Int32Array"
  | codeNotScalar => "Tokens must be numbers or strings"
  | codesMixed => "Tokens must not mix numbers and strings"
  | repeatArguments => "Expected 2 arguments: tokens, minLength"
  | textsExpected => "First argument must be an Array of token strings"
  | textPairExpected => "Expected 2 arguments: tokensA, tokensB"
  | thresholdMissing => "Options must contain a numeric 'threshold'"
  | thresholdOutOfRange => "'threshold' must be between 0 and 1"
  | bandsOutOfRange =>
    s!"numBands must be an integer between 1 and {Settings.maxSignatureSize}"
  | rowsOutOfRange =>
    s!"rowsPerBand must be an integer between 1 and {Settings.maxSignatureSize}"
  | handleNotNumber => "Handle must be a number"
  | unknownHandle => "Invalid LSH index handle"
  | handleExpected => "Expected handle argument"
  | signatureArguments => "Expected 2 arguments: handle, signature"
  | signaturesArguments => "Expected 2 arguments: handle, signaturesArray"
  | queryArguments => "Expected 3 arguments: handle, signature, threshold"
  | signatureNotBuffer => "Signature must be a Buffer"
  | signatureLength => "Signature length must be a multiple of 8 bytes"
  | signaturesNotArray => "Second argument must be an Array of Buffers"
  | signaturesNotBuffers => "All array elements must be Buffers"
  | thresholdNotNumber => "Threshold must be a number"
  | probesNotInteger => "probes must be a non-negative integer"
  | levelExpected => "Expected a level name"

end CallError

end CodeClones.Script
