import Lowering.Scope.Basic
import Lowering.Trace

/-! Actions on a scope. An action may fail, and what it did to the scope and reported before it
failed remains. Blocks and loops are closed however the action within them ends. -/

namespace Lowering

/-- What an action works on. -/
structure Work where
  scope : Scope
  events : List Event
deriving Repr

abbrev Action : Type → Type :=
  ExceptT Error (StateM Work)

namespace Action

def note (event : Event) : Action Unit :=
  modify fun work => { work with events := work.events ++ [event] }

/-- An answer that depends on the scope and leaves it alone. -/
def inspect (question : Scope → Except Error α) : Action α := do
  question (← get).scope

/-- A change of the scope, which is left alone where the change is refused. -/
def change (step : Scope → Except Error Scope) : Action Unit := do
  let scope ← step (← get).scope
  modify fun work => { work with scope }

def readable (name : String) : Action Binding :=
  inspect (·.readable name)

def writable (name : String) : Action Binding :=
  inspect (·.writable name)

def declare (name : String) (origin : Origin) : Action Unit :=
  change (·.declare name origin)

def pass (name : String) (accessor : Accessor) : Action Unit :=
  change (·.pass name accessor)

/-- Runs an action between two changes of the scope, the second of which takes place whether
the action succeeds or fails. -/
def between (first last : Scope → Scope) (action : Action α) : Action α :=
  fun work =>
    let (answer, work) := action { work with scope := first work.scope }
    (answer, { work with scope := last work.scope })

def inBlock (action : Action α) : Action α :=
  between Scope.openBlock Scope.closeBlock action

def inLoop (action : Action α) : Action α :=
  between Scope.openLoop Scope.closeLoop action

/-- Runs an action and hands its failure on as an answer. -/
def attempt (action : Action α) : Action (Except Error α) :=
  fun work =>
    let (answer, work) := action work
    (.ok answer, work)

/-- Runs a computation that does not touch the scope. -/
def ofTraced (computation : Traced α) : Action α :=
  fun work =>
    let (answer, events) := computation work.events
    (answer, { work with events })

/-- Runs an action on a new scope, as the body of a function does. -/
def inNewScope (action : Action α) : Traced α :=
  fun events =>
    let (answer, work) := action ⟨.initial, events⟩
    (answer, work.events)

end Action
end Lowering
