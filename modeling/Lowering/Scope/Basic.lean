import Lowering.Error

/-! Lexical scopes and the ownership discipline. Every value has at most one owner that may
change it: a move ends the source variable, and lending a variable for mutation requires that
it may itself be changed. A variable declared outside the loop in which it is moved would be
moved again in the next round, so such a move is refused. -/

namespace Lowering

/-- Where a variable comes from. -/
inductive Origin where
  | declared (mutable : Bool)
  | parameter (accessor : Accessor)
  /-- The variable of a for loop: a whole number of its own, or a reference to an element. -/
  | loopItem (borrowed : Bool)
deriving DecidableEq, Repr

structure Binding where
  origin : Origin
  moved : Bool
  /-- How many loops were open at the declaration. -/
  depth : Nat
deriving DecidableEq, Repr

namespace Binding

/-- The accessor by which the variable refers to a value that it does not own. -/
def loan? (binding : Binding) : Option Accessor :=
  match binding.origin with
  | .parameter accessor => if accessor.isLoan then some accessor else none
  | .loopItem true => some .look
  | _ => none

def isLoan (binding : Binding) : Bool :=
  binding.loan?.isSome

/-- The value may be changed through the variable. -/
def isMutable (binding : Binding) : Bool :=
  match binding.origin with
  | .declared mutable => mutable
  | .parameter accessor => accessor ≠ .look
  | .loopItem _ => false

/-- The variable owns its value and may give it away. -/
def isMovable (binding : Binding) : Bool :=
  match binding.origin with
  | .declared mutable => mutable
  | .parameter accessor => accessor = .move ∨ accessor = .copy
  | .loopItem _ => false

/-- The variable may be handed over in the given way. -/
def permits (binding : Binding) : Accessor → Bool
  | .look | .copy => true
  | .mutate => binding.isMutable
  | .move => binding.isMovable

end Binding

/-- The variables of one block, the latest declared first. -/
abbrev Frame : Type :=
  List (String × Binding)

/-- The open blocks, the innermost first. The last one is the function's own and cannot be
closed, which is why there is always an inner one. -/
structure Scope where
  inner : Frame
  outer : List Frame
  loopDepth : Nat
deriving DecidableEq, Repr

namespace Scope

def initial : Scope :=
  ⟨[], [], 0⟩

def frames (scope : Scope) : List Frame :=
  scope.inner :: scope.outer

def isInLoop (scope : Scope) : Bool :=
  0 < scope.loopDepth

def openBlock (scope : Scope) : Scope :=
  { scope with inner := [], outer := scope.inner :: scope.outer }

/-- Closes the innermost block, unless it is the function's own. -/
def closeBlock (scope : Scope) : Scope :=
  match scope.outer with
  | [] => scope
  | frame :: outer => { scope with inner := frame, outer }

/-- A loop opens a block of its own. -/
def openLoop (scope : Scope) : Scope :=
  { scope.openBlock with loopDepth := scope.loopDepth + 1 }

def closeLoop (scope : Scope) : Scope :=
  { scope.closeBlock with loopDepth := scope.loopDepth - 1 }

/-- The innermost variable of a name. -/
def find? (scope : Scope) (name : String) : Option Binding :=
  scope.frames.findSome? (·.lookup name)

/-- Adds a variable to the innermost block, where its name must be new. -/
def declare (scope : Scope) (name : String) (origin : Origin) : Except Error Scope :=
  if (scope.inner.lookup name).isSome then .error (.misuse (.redeclared name))
  else .ok { scope with inner := (name, ⟨origin, false, scope.loopDepth⟩) :: scope.inner }

/-- The variable of a name, which must still have its value. -/
def readable (scope : Scope) (name : String) : Except Error Binding :=
  match scope.find? name with
  | none => .error (.misuse (.undeclared name))
  | some binding => if binding.moved then .error (.misuse (.afterMove name)) else .ok binding

/-- The variable of a name, whose value must be there to be changed. -/
def writable (scope : Scope) (name : String) : Except Error Binding := do
  let binding ← scope.readable name
  if binding.isMutable then return binding else throw (.misuse (.notMutable name))

/-- Marks the variable of a name in one block as moved. -/
def markFrame (name : String) : Frame → Frame
  | [] => []
  | (other, binding) :: rest =>
    if other = name then (other, { binding with moved := true }) :: rest
    else (other, binding) :: markFrame name rest

/-- Marks the variable of a name as moved in the first block that has one. -/
def markFrames (name : String) : List Frame → List Frame
  | [] => []
  | frame :: rest =>
    if (frame.lookup name).isSome then markFrame name frame :: rest
    else frame :: markFrames name rest

def markMoved (scope : Scope) (name : String) : Scope :=
  if (scope.inner.lookup name).isSome then { scope with inner := markFrame name scope.inner }
  else { scope with outer := markFrames name scope.outer }

/-- Hands a variable over. Moving it ends it for every later use. -/
def pass (scope : Scope) (name : String) (accessor : Accessor) : Except Error Scope := do
  let binding ← scope.readable name
  if !binding.permits accessor then throw (.misuse (.notPassable name accessor))
  if accessor = .move then
    if binding.depth < scope.loopDepth then throw (.misuse (.moveInLoop name))
    return scope.markMoved name
  else return scope

end Scope
end Lowering
