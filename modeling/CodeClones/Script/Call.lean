import CodeClones.Script.Session

/-!
# Script/Call — calling a function by name

The table of the functions that a script can call.
-/

namespace CodeClones.Script

open Log

/-- The functions, in the order of their names. -/
inductive Operation where
  | buildLcpArray
  | buildSuffixArray
  | createIndex
  | detectClones
  | findRepeats
  | getThreadCount
  | jaccard
  | add
  | addBatch
  | destroy
  | candidatePairs
  | candidates
  | statistics
  | query
  | minhashSignature
  | setLevel
  | setThreads
deriving DecidableEq, Repr

namespace Operation

def all : List Operation :=
  [buildLcpArray, buildSuffixArray, createIndex, detectClones, findRepeats, getThreadCount, jaccard,
    add, addBatch, destroy, candidatePairs, candidates, statistics, query, minhashSignature,
    setLevel, setThreads]

/-- The name under which a script calls the function. -/
def name : Operation → String
  | buildLcpArray => "buildLcpArray"
  | buildSuffixArray => "buildSuffixArray"
  | createIndex => "createLSHIndex"
  | detectClones => "detectClones"
  | findRepeats => "findRepeats"
  | getThreadCount => "getThreadCount"
  | jaccard => "jaccard"
  | add => "lshAdd"
  | addBatch => "lshAddBatch"
  | destroy => "lshDestroy"
  | candidatePairs => "lshFindCandidatePairs"
  | candidates => "lshGetCandidates"
  | statistics => "lshGetStats"
  | query => "lshQuery"
  | minhashSignature => "minhashSignature"
  | setLevel => "setLogLevel"
  | setThreads => "setThreadCount"

/-- The function of a name, if there is one. -/
def ofName? (name : String) : Option Operation :=
  all.find? fun operation => operation.name == name

theorem mem_all (operation : Operation) : operation ∈ all := by
  cases operation <;> decide

end Operation

/-- **Call a function.** -/
def Session.call (session : Session) (operation : Operation) (arguments : Arguments) :
    Logged Outcome :=
  match operation with
  | .buildLcpArray => return session.unchanged (Script.buildLcpArray arguments)
  | .buildSuffixArray => return session.unchanged (Script.buildSuffixArray arguments)
  | .createIndex => return session.createIndex arguments
  | .detectClones => do
    let answer ← Script.detectClones session.ambient arguments
    return session.unchanged answer
  | .findRepeats => return session.unchanged (Script.findRepeats arguments)
  | .getThreadCount => return session.unchanged (.ok (.ofNat session.ambient.threads))
  | .jaccard => return session.unchanged (Script.jaccard arguments)
  | .add => session.add arguments
  | .addBatch => session.addBatch arguments
  | .destroy => return session.destroy arguments
  | .candidatePairs => return session.unchanged (session.candidatePairs arguments)
  | .candidates => return session.unchanged (session.candidates arguments)
  | .statistics => return session.unchanged (session.statistics arguments)
  | .query => return session.unchanged (session.query arguments)
  | .minhashSignature => return session.unchanged (Script.minhashSignature arguments)
  | .setLevel => return session.setLevel arguments
  | .setThreads => return session.setThreads arguments

end CodeClones.Script
