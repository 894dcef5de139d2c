/-!
# Log/Entry — what a run reports on the way

An entry is a level and a text.  Computations do not print: they return their entries beside their
value (`Log/Logged`), and a threshold decides afterwards which entries are shown.
-/

namespace CodeClones.Log

/-- The levels in ascending order of weight; `off` is a threshold only, no entry has it. -/
inductive Level where
  | debug
  | info
  | warn
  | error
  | off
deriving DecidableEq, Repr

namespace Level

/-- The position of a level in the order of weight. -/
def rank : Level → Nat
  | debug => 0
  | info => 1
  | warn => 2
  | error => 3
  | off => 4

def name : Level → String
  | debug => "debug"
  | info => "info"
  | warn => "warn"
  | error => "error"
  | off => "off"

/-- The level of a name, if there is one; names are lower case. -/
def ofName? : String → Option Level
  | "debug" => some debug
  | "info" => some info
  | "warn" => some warn
  | "error" => some error
  | "off" => some off
  | _ => none

theorem ofName?_name (level : Level) : ofName? level.name = some level := by
  cases level <;> rfl

/-- The four letters that open a line of this level. -/
def label : Level → String
  | debug => "DEBG"
  | info => "INFO"
  | warn => "WARN"
  | error => "EROR"
  | off => "UNKN"

/-- **Does the threshold let this level through?** — `off` lets nothing through. -/
def passes (threshold level : Level) : Bool :=
  decide (threshold ≠ off) && decide (threshold.rank ≤ level.rank)

@[simp] theorem passes_off (level : Level) : passes off level = false := by
  cases level <;> rfl

end Level

structure Entry where
  level : Level
  text : String
deriving DecidableEq, Repr

/-- The line that shows an entry. -/
def Entry.line (entry : Entry) : String :=
  entry.level.label ++ " " ++ entry.text

/-- The lines shown under a threshold, in order. -/
def shown (threshold : Level) (entries : List Entry) : List String :=
  (entries.filter fun entry => threshold.passes entry.level).map Entry.line

@[simp] theorem shown_off (entries : List Entry) : shown .off entries = [] := by
  simp [shown]

end CodeClones.Log
