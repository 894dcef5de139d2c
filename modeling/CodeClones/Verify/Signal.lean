/-!
# Verify/Signal — cancellation, and those who listen

A run can be cancelled from outside at any moment.  `Signal` is the flag as the run sees it: each
reading shows what others have set by then, and what a listener of the run itself has set.  A
`Listener` is called with results; it may ask for the run to stop, and it may raise the flag.
-/

namespace CodeClones

/-- **The cancel flag** — `outside n` is what the `n`-th reading shows of the writes of others. -/
structure Signal where
  outside : Nat → Bool := fun _ => false
  readings : Nat := 0
  raised : Bool := false

namespace Signal

/-- A flag that nobody sets. -/
def quiet : Signal := {}

/-- A flag that is set, or not, from the beginning. -/
def constant (value : Bool) : Signal where
  raised := value

/-- Set the flag. -/
def raise (signal : Signal) : Signal :=
  { signal with raised := true }

/-- What a reading shows now. -/
def isSet (signal : Signal) : Bool :=
  signal.raised || signal.outside signal.readings

/-- The flag after a reading. -/
def afterReading (signal : Signal) : Signal :=
  { signal with readings := signal.readings + 1 }

end Signal

/-- What a listener answers to a call. -/
structure Reply where
  goesOn : Bool := true
  cancels : Bool := false
deriving DecidableEq, Repr

/-- The answer to each call; calls are counted from one. -/
abbrev Listener (α : Type) := Nat → α → Reply

/-- The calls made so far, in order, and the cancel flag. -/
structure Hearing (α : Type) where
  heard : Array α := #[]
  signal : Signal := {}

namespace Hearing

variable {α : Type}

/-- **Call the listener**; answer the new state, and whether it asks for more. -/
def call (listener : Listener α) (hearing : Hearing α) (a : α) : Hearing α × Bool :=
  let reply := listener (hearing.heard.size + 1) a
  ({ heard := hearing.heard.push a
     signal := if reply.cancels then hearing.signal.raise else hearing.signal }, reply.goesOn)

/-- Read the cancel flag. -/
def afterReading (hearing : Hearing α) : Hearing α :=
  { hearing with signal := hearing.signal.afterReading }

end Hearing

end CodeClones
