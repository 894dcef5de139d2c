import CodeClones.Order.Positive

/-!
# Parallel/Gate — when work is spread over several workers

A gate says how many workers there are and from which size on it pays to use them.  Below its
thresholds the work is done in order by one worker.  The gate chooses a path; it never changes an
answer.
-/

namespace CodeClones.Parallel

/-- How eagerly work is spread: never, above the usual sizes, or early and oversubscribed. -/
inductive Mode where
  | sequential
  | safe
  | maximum
deriving DecidableEq, Repr

namespace Mode

def name : Mode → String
  | sequential => "none"
  | safe => "safe"
  | maximum => "maximum"

/-- The mode of a name, if there is one. -/
def ofName? : String → Option Mode
  | "none" => some sequential
  | "safe" => some safe
  | "maximum" => some maximum
  | _ => none

theorem ofName?_name (mode : Mode) : ofName? mode.name = some mode := by
  cases mode <;> rfl

end Mode

/-- Size thresholds and the number of workers. -/
structure Gate where
  enabled : Bool
  minDocuments : Nat
  minPairs : Nat
  workers : Nat
deriving DecidableEq, Repr

namespace Gate

/-- What a caller asks for.  A count of workers that is not positive stands for "as many as there
are threads". -/
structure Request where
  enabled : Bool := true
  minDocuments : Nat := 50
  minPairs : Nat := 100
  workers : Int := 0

/-- **The gate of a request** — thresholds are at least one. -/
def ofRequest (threads : Nat) (request : Request) : Gate where
  enabled := request.enabled
  minDocuments := Order.atLeastOne request.minDocuments
  minPairs := Order.atLeastOne request.minPairs
  workers := if 0 < request.workers then request.workers.toNat else threads

/-- One worker, whatever the size. -/
def closed : Gate where
  enabled := false
  minDocuments := 50
  minPairs := 100
  workers := 1

/-- The gate of a mode on a machine with `threads` threads. -/
def ofMode (threads : Nat) : Mode → Gate
  | .sequential => closed
  | .safe => ofRequest threads {}
  | .maximum =>
    ofRequest threads { minDocuments := 16, minPairs := 32, workers := Int.ofNat (threads * 2) }

/-- Are `count` documents spread over several workers? -/
def spreadsDocuments (gate : Gate) (count : Nat) : Bool :=
  gate.enabled && decide (1 < gate.workers) && decide (gate.minDocuments ≤ count)

/-- Are `count` pairs spread over several workers? -/
def spreadsPairs (gate : Gate) (count : Nat) : Bool :=
  gate.enabled && decide (1 < gate.workers) && decide (gate.minPairs ≤ count)

@[simp] theorem closed_spreadsDocuments (count : Nat) :
    closed.spreadsDocuments count = false := rfl

@[simp] theorem closed_spreadsPairs (count : Nat) : closed.spreadsPairs count = false := rfl

end Gate

end CodeClones.Parallel
