import Lowering.Error

/-! What the compiler reports of its progress. Reports are kept in order beside every result,
and a failure keeps those that came before it. -/

namespace Lowering

inductive Event where
  | reading (path : String)
  | collected (signatures : Nat)
  | assembling (function : String)
  | statement (tag : String)
  | call (function : String) (arguments : Nat)
  | lowered (functions : Nat)
  | wrote (path : String)
deriving DecidableEq, Repr

namespace Event

def message : Event → String
  | reading path => "reading " ++ path
  | collected signatures => "collected " ++ Nat.repr signatures ++ " function signatures"
  | assembling function => "assembling function " ++ function
  | statement tag => "statement " ++ tag
  | call function arguments => "call " ++ function ++ " (" ++ Nat.repr arguments ++ " args)"
  | lowered functions => "lowered " ++ Nat.repr functions ++ " functions"
  | wrote path => "wrote " ++ path

end Event

/-- A computation that may fail with an error and reports events as it goes. -/
abbrev Traced : Type → Type :=
  ExceptT Error (StateM (List Event))

namespace Traced

def note (event : Event) : Traced Unit :=
  modify (· ++ [event])

/-- The outcome together with the events reported on the way. -/
def outcome (computation : Traced α) : Except Error α × List Event :=
  computation.run.run []

/-- The outcome alone. -/
def result (computation : Traced α) : Except Error α :=
  computation.outcome.1

end Traced
end Lowering
