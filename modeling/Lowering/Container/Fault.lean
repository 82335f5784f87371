/-! What can go wrong while a program runs. A fault is either reported to the caller, or it
ends the program with a diagnostic. -/

namespace Lowering.Container

inductive Fault where
  | indexOutOfBounds (index length : Nat)
  | empty
  | output (cause : String)
deriving DecidableEq, Repr

def Fault.message : Fault → String
  | indexOutOfBounds index length =>
    "index out of bounds: index " ++ Nat.repr index ++ " but length is " ++ Nat.repr length
  | empty => "container is empty"
  | output cause => "output failed: " ++ cause

/-- The end of a running program, with its last words. -/
structure Halt where
  diagnostic : String
deriving DecidableEq, Repr

def Fault.halt (fault : Fault) : Halt :=
  ⟨"< Exception: " ++ fault.message ++ " >"⟩

/-- The fatal form of an operation: where the operation reports a fault, the program ends. -/
def fatal (answer : Except Fault α) : Except Halt α :=
  answer.mapError Fault.halt

end Lowering.Container
