import CodeClones.Detect.Pairwise
import CodeClones.Engine.Run
import CodeClones.Script.Read

/-!
# Script/Session — the functions that a script can call

A session keeps the indexes that a script has created, each under a handle, and in a table of its
own the number that the next signature of each handle gets.  A call answers a value or an error;
what a call has done before it fails stays done.
-/

namespace CodeClones.Script

open Log Parallel

/-- What the functions share with the rest of the program. -/
structure Ambient where
  threads : Nat
  threshold : Level
deriving DecidableEq, Repr

/-- The number under which a script knows an index. -/
abbrev Handle := UInt32

/-- **The handle that a value names** — any number, brought into 32 bits. -/
def Value.handle? : Value → Option Handle
  | .number x => some (Exact.unsigned32 x)
  | _ => none

structure Session where
  ambient : Ambient
  indexes : Std.HashMap Handle Index
  /-- The number of the next signature of each handle. -/
  nextIds : Std.HashMap Handle DocumentId
  nextHandle : Handle

/-- A session without indexes. -/
def Session.start (ambient : Ambient) : Session where
  ambient := ambient
  indexes := ∅
  nextIds := ∅
  nextHandle := 1

/-- What a call leads to: the session after it, and its answer. -/
structure Outcome where
  session : Session
  answer : Except CallError Value

/-- The arguments of a call. -/
structure Arguments where
  values : List Value

namespace Arguments

def count (arguments : Arguments) : Nat :=
  arguments.values.length

/-- An argument; an absent one is `undefined`. -/
def get (arguments : Arguments) (i : Nat) : Value :=
  arguments.values[i]?.getD .undefined

end Arguments

/-! ## Functions without a session -/

/-- The texts of a list of values. -/
def textOfItem : Value → String
  | .text text => text
  | value => value.toText

def cloneValue (clone : Clone) : Value :=
  .record [("file", .text clone.file), ("startLine", .ofInt clone.startLine),
    ("endLine", .ofInt clone.endLine), ("tokenCount", .ofInt clone.tokenCount),
    ("codeSnippet", .text clone.snippet)]

def groupValue (group : CloneGroup Float) : Value :=
  .record [("type", .text group.kind.name), ("similarity", .number group.similarity),
    ("fingerprint", .text group.fingerprint), ("clones", .list (group.clones.map cloneValue))]

/-- Read the files and settings of a detection; settings come first. -/
def readDetection (arguments : Arguments) : Except CallError (Settings × List SourceFile) :=
  match arguments.get 0 with
  | .list files => do
    let settings ← readSettingsArgument (arguments.get 1)
    let files ← files.mapM readFile
    return (settings, files)
  | _ => .error .filesExpected

/-- **Detect clones** in some files. -/
def detectClones (ambient : Ambient) (arguments : Arguments) :
    Logged (Except CallError Value) :=
  match readDetection arguments with
  | .error error => return .error error
  | .ok (settings, files) => do
    let groups ← Engine.run ambient.threads (Schedule.dealt ambient.threads) settings files
    return .ok (.list (groups.map groupValue))

def naturals (numbers : Array Nat) : Value :=
  .int32s (numbers.toList.map Int.ofNat)

/-- The token sequence of a call. -/
def codesArgument (arguments : Arguments) : Except CallError (Array Int) :=
  if arguments.count < 1 then .error .codesMissing else readCodes (arguments.get 0)

/-- **The suffix array** of a token sequence. -/
def buildSuffixArray (arguments : Arguments) : Except CallError Value := do
  let codes ← codesArgument arguments
  return naturals (Suffix.suffixArray codes)

/-- **The suffix array and the common lengths** of a token sequence. -/
def buildLcpArray (arguments : Arguments) : Except CallError Value := do
  let codes ← codesArgument arguments
  let suffixes := SuffixArray.ofText codes
  return .record [("suffixArray", naturals suffixes.order),
    ("lcp", naturals (Repeat.commonLengths codes suffixes.order))]

def repeatValue (found : Repeat) : Value :=
  .record [("positions", .int32s (found.positions.map Int.ofNat)), ("length", .ofNat found.length)]

/-- **The repeats** of a token sequence: all of them if that is asked for, otherwise a selection. -/
def findRepeats (arguments : Arguments) : Except CallError Value :=
  match arguments.get 1 with
  | .number least => do
    let codes ← readCodes (arguments.get 0)
    let table := RepeatTable.ofSuffixes (SuffixArray.ofText codes)
    let all := readFlag false (arguments.get 2)
    let found := if all then table.maximal (Exact.signed32 least)
      else table.selected (Exact.signed32 least)
    return .list (found.map repeatValue)
  | _ => .error .repeatArguments

/-- The shingle hashes of a list of texts; nothing is renamed. -/
def shingleHashes (options : SketchOptions) (items : List Value) : List UInt64 :=
  (Shingler.ofSize options.shingleSize false).hashes (items.map textOfItem) []

/-- The functions of some sketch settings. -/
def sketcherOf (options : SketchOptions) : Sketcher :=
  Sketcher.ofSeed options.signatureSize options.seed

/-- **The signature** of a list of texts, as a buffer. -/
def minhashSignature (arguments : Arguments) : Except CallError Value :=
  match arguments.get 0 with
  | .list items => do
    let options ← readSketchArgument (arguments.get 1)
    let signature := (sketcherOf options).sketch (shingleHashes options items) 0
    return .buffer (SlotBytes.encode signature.slots.toList)
  | _ => .error .textsExpected

/-- **The similarity** of two lists of texts, estimated and exact. -/
def jaccard (arguments : Arguments) : Except CallError Value :=
  match arguments.get 0, arguments.get 1 with
  | .list as, .list bs => do
    let options ← readSketchArgument (arguments.get 2)
    let as := shingleHashes options as
    let bs := shingleHashes options bs
    let sketcher := sketcherOf options
    return .record
      [("estimated", .number ((sketcher.sketch as 0).overlap (sketcher.sketch bs 1)).toFloat),
        ("exact", .number (Overlap.ofAscending as bs).toFloat)]
  | _, _ => .error .textPairExpected

/-! ## Functions on the indexes of a session -/

/-- A count from one to the largest signature size. -/
def readCount (value : Value) (standard : Nat) (error : CallError) : Except CallError Nat :=
  match value with
  | .undefined => .ok standard
  | value =>
    match value.integerIn? 1 (Int.ofNat Settings.maxSignatureSize) with
    | some n => .ok n.toNat
    | none => .error error

/-- The split for a threshold that is given with other settings. -/
def readThresholdSplit (options : Value) : Except CallError Split :=
  match options.property "threshold" with
  | .number threshold =>
    if 0 ≤ threshold ∧ threshold ≤ 1 then do
      let slots ← readInteger options "numHashes" 1 (Int.ofNat Settings.maxSignatureSize) 128
      return Split.forThreshold slots.toNat threshold
    else .error .thresholdOutOfRange
  | _ => .error .thresholdMissing

/-- **The split of a new index** — from a threshold, or as bands and rows. -/
def readSplit (arguments : Arguments) : Except CallError Split :=
  if (arguments.get 0).isObject then readThresholdSplit (arguments.get 0)
  else do
    let bands ← readCount (arguments.get 0) 16 .bandsOutOfRange
    let rows ← readCount (arguments.get 1) 8 .rowsOutOfRange
    return Split.ofCounts bands rows

namespace Session

/-- The session is left as it is. -/
def unchanged (session : Session) (answer : Except CallError Value) : Outcome :=
  ⟨session, answer⟩

/-- Keep an index under a handle, with the number of its next signature. -/
def hold (session : Session) (handle : Handle) (index : Index) (nextId : DocumentId) : Session :=
  { session with
    indexes := session.indexes.insert handle index
    nextIds := session.nextIds.insert handle nextId }

/-- **Create an index** and answer its handle. -/
def createIndex (session : Session) (arguments : Arguments) : Outcome :=
  match readSplit arguments with
  | .error error => session.unchanged (.error error)
  | .ok split =>
    let handle := session.nextHandle
    { session := { session.hold handle (Index.empty split) 0 with nextHandle := handle + 1 }
      answer := .ok (.ofNat handle.toNat) }

/-- The handle that a value names, with the index under it. -/
def find (session : Session) (value : Value) : Except CallError (Handle × Index) :=
  match value.handle? with
  | none => .error .handleNotNumber
  | some handle =>
    match session.indexes[handle]? with
    | some index => .ok (handle, index)
    | none => .error .unknownHandle

/-- The number that the next signature of a handle gets. -/
def nextId (session : Session) (handle : Handle) : DocumentId :=
  session.nextIds.getD handle 0

/-- To ask for the next number of a handle that has none yet starts its count. -/
def startCount (session : Session) (handle : Handle) : Session :=
  { session with nextIds := session.nextIds.insertIfNew handle 0 }

/-- **Add a signature** under the next number of a handle.  What is no buffer is refused at once, a
buffer of the wrong length only after the number has been asked for. -/
def addSignature (session : Session) (handle : Handle) (value : Value) (notBuffer : CallError) :
    Logged Outcome :=
  match session.indexes[handle]?, value.rawBytes? with
  | none, _ => return session.unchanged (.error .unknownHandle)
  | some _, none => return session.unchanged (.error notBuffer)
  | some index, some bytes =>
    match readSlots bytes with
    | .error error => return (session.startCount handle).unchanged (.error error)
    | .ok slots => do
      let id := session.nextId handle
      let index ← index.insertLogged ⟨id, slots⟩
      return ⟨session.hold handle index (id + 1), .ok (.ofNat id.toNat)⟩

/-- Add one signature and answer its number. -/
def add (session : Session) (arguments : Arguments) : Logged Outcome :=
  if arguments.count < 2 then return session.unchanged (.error .signatureArguments)
  else
    match session.find (arguments.get 0) with
    | .error error => return session.unchanged (.error error)
    | .ok (handle, _) => session.addSignature handle (arguments.get 1) .signatureNotBuffer

/-- Add signatures one after the other; the first value that is no signature ends it, and what was
added before stays. -/
def addEach (session : Session) (handle : Handle) (numbers : List Value) :
    List Value → Logged Outcome
  | [] => return session.unchanged (.ok (.list numbers.reverse))
  | value :: values => do
    let added ← session.addSignature handle value .signaturesNotBuffers
    match added.answer with
    | .error _ => return added
    | .ok number => added.session.addEach handle (number :: numbers) values

/-- The handle to which values are to be added, and the values. -/
def readAdditions (session : Session) (arguments : Arguments) :
    Except CallError (Handle × List Value) :=
  if arguments.count < 2 then .error .signaturesArguments
  else do
    let (handle, _) ← session.find (arguments.get 0)
    match arguments.get 1 with
    | .list values => return (handle, values)
    | _ => throw .signaturesNotArray

/-- **Add several signatures** and answer their numbers. -/
def addBatch (session : Session) (arguments : Arguments) : Logged Outcome :=
  match session.readAdditions arguments with
  | .error error => return session.unchanged (.error error)
  | .ok (handle, values) => session.addEach handle [] values

/-- The number that a signature has while it is only looked up; no document has it. -/
def lookupId : DocumentId := 4294967295

/-- **The scored candidates** of a signature. -/
def query (session : Session) (arguments : Arguments) : Except CallError Value :=
  if arguments.count < 3 then .error .queryArguments
  else do
    let (_, index) ← session.find (arguments.get 0)
    match (arguments.get 1).rawBytes?, arguments.get 2 with
    | none, _ => throw .signatureNotBuffer
    | some bytes, .number threshold =>
      let slots ← readSlots bytes
      let found := index.queryScored ⟨lookupId, slots⟩ threshold
      return .list (found.map fun (id, similarity) =>
        .record [("id", .ofNat id.toNat), ("similarity", .number similarity)])
    | some _, _ => throw .thresholdNotNumber

/-- How far a search for candidates reaches. -/
def readProbes : Value → Except CallError Nat
  | .undefined => .ok 0
  | value =>
    match value.integerIn? 0 (Int.ofNat Settings.maxSignatureSize) with
    | some n => .ok n.toNat
    | none => .error .probesNotInteger

/-- **The candidates** of a signature without scores. -/
def candidates (session : Session) (arguments : Arguments) : Except CallError Value :=
  match (arguments.get 1).rawBytes? with
  | none => .error .signatureArguments
  | some bytes => do
    let (_, index) ← session.find (arguments.get 0)
    let slots ← readSlots bytes
    let probes ← readProbes (arguments.get 2)
    let found := if 0 < probes then index.queryProbing ⟨lookupId, slots⟩ probes
      else index.query ⟨lookupId, slots⟩
    return .list (found.map fun id => .ofNat id.toNat)

/-- **All candidate pairs** of an index. -/
def candidatePairs (session : Session) (arguments : Arguments) : Except CallError Value :=
  if arguments.count < 1 then .error .handleExpected
  else do
    let (_, index) ← session.find (arguments.get 0)
    let mode ← readMode .safe (arguments.get 1)
    let threads := session.ambient.threads
    let pairs := index.candidatePairsUnder (Gate.ofMode threads mode)
      (Schedule.dealt threads)
    return .list (pairs.map fun pair =>
      .record [("i", .ofNat pair.first.toNat), ("j", .ofNat pair.second.toNat)])

/-- **The figures** of an index. -/
def statistics (session : Session) (arguments : Arguments) : Except CallError Value :=
  if arguments.count < 1 then .error .handleExpected
  else do
    let (_, index) ← session.find (arguments.get 0)
    let figures := index.statistics
    return .record [("numSignatures", .ofNat figures.signatures),
      ("numBands", .ofNat figures.bands), ("rowsPerBand", .ofNat figures.rows),
      ("totalBuckets", .ofNat figures.buckets), ("avgBucketSize", .number figures.meanBucket),
      ("maxBucketSize", .ofNat figures.largestBucket)]

/-- **Give up an index**; its handle is not used again. -/
def destroy (session : Session) (arguments : Arguments) : Outcome :=
  match (arguments.get 0).handle? with
  | none => session.unchanged (.error .handleExpected)
  | some handle =>
    { session := { session with
        indexes := session.indexes.erase handle
        nextIds := session.nextIds.erase handle }
      answer := .ok .undefined }

/-! ## Threads and levels -/

/-- The number of threads after a request for `count`; only a positive count changes it. -/
def threadsAfter (threads : Nat) (count : Int) : Nat :=
  if 0 < count then count.toNat else threads

/-- **Set the number of threads**; what is not a positive number is passed over. -/
def setThreads (session : Session) (arguments : Arguments) : Outcome :=
  match arguments.get 0 with
  | .number x =>
    let threads := threadsAfter session.ambient.threads (Exact.signed32 x)
    ⟨{ session with ambient := { session.ambient with threads := threads } }, .ok .undefined⟩
  | _ => session.unchanged (.ok .undefined)

/-- **Set the level** from which on entries are shown. -/
def setLevel (session : Session) (arguments : Arguments) : Outcome :=
  match arguments.get 0 with
  | .text name =>
    match Level.ofName? name with
    | some level =>
      ⟨{ session with ambient := { session.ambient with threshold := level } }, .ok .undefined⟩
    | none => session.unchanged (.error (.unknownLevel name))
  | _ => session.unchanged (.error .levelExpected)

end Session

end CodeClones.Script
