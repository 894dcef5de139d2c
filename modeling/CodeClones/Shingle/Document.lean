import CodeClones.Log.Logged
import CodeClones.Order.Positive
import CodeClones.Parallel.Gate
import CodeClones.Parallel.Workload
import CodeClones.Shingle.Basic

/-!
# Shingle/Document — files and blocks of files as shingle sets

The unit of comparison is a document: a whole file, or a block of it.  Blocks have a fixed number of
tokens and start every half block, so neighbouring blocks overlap.  Identifiers count on from file
to file; they are 32-bit words and wrap around.
-/

namespace CodeClones

open Log Parallel

/-- The number of a document, a 32-bit word. -/
abbrev DocumentId := UInt32

/-- A stretch of a file with its shingle hashes. -/
structure Document where
  id : DocumentId
  file : String
  startLine : Int
  endLine : Int
  tokenCount : Nat
  hashes : List UInt64
deriving DecidableEq, Repr

namespace Block

/-- Blocks start every half block. -/
def stride (size : Nat) : Nat :=
  Order.atLeastOne (size / 2)

theorem stride_pos (size : Nat) : 0 < stride size :=
  Order.atLeastOne_pos _

/-- **How many blocks fit** — as many strides as leave room for a whole block. -/
def count (tokens size : Nat) : Nat :=
  if size = 0 ∨ tokens < size then 0 else (tokens - size) / stride size + 1

end Block

namespace Shingler

/-- The shingle hashes of some tokens. -/
def hashesOf (shingler : Shingler) (tokens : Array Token) : List UInt64 :=
  shingler.hashes (tokens.toList.map Token.text) (tokens.toList.map Token.kind)

/-- The document of some tokens of a file.  Without tokens it stands on the first line. -/
def documentOf (shingler : Shingler) (file : String) (tokens : Array Token) (id : DocumentId) :
    Document :=
  { id := id
    file := file
    startLine := match tokens[0]? with
      | some token => token.line
      | none => 1
    endLine := match tokens.back? with
      | some token => token.line
      | none => 1
    tokenCount := tokens.size
    hashes := shingler.hashesOf tokens }

/-- A whole file as one document. -/
def document (shingler : Shingler) (file : SourceFile) (id : DocumentId) : Document :=
  shingler.documentOf file.name file.tokens id

/-- **The blocks of a file**, numbered from `first`. -/
def blocks (shingler : Shingler) (file : SourceFile) (size : Nat) (first : DocumentId) :
    List Document :=
  (List.range (Block.count file.tokens.size size)).map fun block =>
    let start := block * Block.stride size
    shingler.documentOf file.name (file.window start (start + size)) (first + UInt32.ofNat block)

/-- The number of the first block of each file, counting on from `first`. -/
def firstIds (size : Nat) (first : DocumentId) : List SourceFile → List DocumentId
  | [] => []
  | file :: files =>
    first :: firstIds size (first + UInt32.ofNat (Block.count file.tokens.size size)) files

/-- What the shared loop over the files says about itself. -/
def spreadReport (files workers : Nat) : Entry where
  level := .debug
  text := s!"shingling {files} files on {workers} threads"

/-- **The blocks of several files** in the order of the files, consecutively numbered.  Above the
threshold of the gate the files are shared among workers; first numbers are fixed beforehand. -/
def allBlocks (shingler : Shingler) (gate : Gate) (schedule : Schedule) (size : Nat)
    (first : DocumentId) (files : List SourceFile) : Logged (List Document) :=
  let numbered := (files.zip (firstIds size first files)).toArray
  let ofFile (index : Nat) : List Document :=
    match numbered[index]? with
    | some (file, id) => shingler.blocks file size id
    | none => []
  if gate.spreadsDocuments files.length then do
    Logged.report (spreadReport files.length gate.workers)
    return ((schedule.files files.length).fill [] ofFile).flatten
  else return ((List.range files.length).map ofFile).flatten

end Shingler

end CodeClones
