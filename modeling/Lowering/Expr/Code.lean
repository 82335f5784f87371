import Lowering.Name
import Lowering.Expr.Basic
import Lowering.Function.Signature
import Lowering.Scope.Action

/-! The Rust text of expressions. An expression is written out either for its value or as a
place; the two differ only where a variable holds a reference, which is dereferenced for its
value and seen through as a place. The other ways of using an expression, lending it, owning
it and passing it, are built on these two. -/

namespace Lowering

/-- What an expression is written out for. -/
inductive Form where
  | value
  | place
deriving DecidableEq, Repr

namespace Expr

/-- The text of an expression lent to something that only looks at it. A place is borrowed, a
variable that holds a reference lends what it refers to, and a temporary value needs no
borrowing. -/
def lend (expr : Expr) (code : Form → Action String) : Action String := do
  match expr with
  | identifier name =>
    if (← Action.readable name).isLoan then return "&*" ++ (← Name.code name)
    else return "&" ++ (← code .place)
  | _ => if expr.isStored then return "&" ++ (← code .place) else code .value

/-- The text of an expression given to a new owner. What is stored somewhere is duplicated, so
no two owners share it. -/
def own (expr : Expr) (code : Form → Action String) : Action String := do
  let text ← code .value
  if expr.isStored then return text ++ ".clone()" else return text

/-- A value of the caller's own, handed over as the parameter wants it. -/
def handOver (expected : Accessor) (value : String) : String :=
  match expected with
  | .look => "&" ++ value
  | .mutate => "&mut " ++ value
  | .move | .copy => value

/-- The text of a stored argument under the accessor that the call writes. A plain variable
that holds a reference lends what it refers to, and only a plain variable can be moved. -/
def passStored (function : String) (parameter : String × Accessor) (accessor : Accessor)
    (root : String) (expr : Expr) (code : Form → Action String) : Action String := do
  let plainName? := match expr with
    | identifier name => some name
    | _ => none
  let refers ← match plainName? with
    | some name => Binding.isLoan <$> Action.readable name
    | none => pure false
  match accessor with
  | .copy => return handOver parameter.2 ((← code .value) ++ ".clone()")
  | .look => expr.lend code
  | .mutate =>
    if refers then return "&mut *" ++ (← Name.code root) else return "&mut " ++ (← code .place)
  | .move =>
    if plainName?.isSome then Name.code root
    else throw (.misuse (.moveOfPart parameter.1 function))

/-- The text of an argument. A temporary value has no owner to protect and is handed over as
the parameter wants it. What is stored must be passed under the accessor of the parameter or be
duplicated; its variable is checked after its text is complete, since a call within the
argument may have given the variable away. -/
def pass (function : String) (parameter : String × Accessor) (accessor : Accessor) (expr : Expr)
    (code : Form → Action String) : Action String := do
  match expr.root? with
  | none =>
    let text ← code .value
    return handOver parameter.2 (if expr.isChain then "(" ++ text ++ ")" else text)
  | some root =>
    if accessor ≠ parameter.2 ∧ accessor ≠ .copy then
      throw (.misuse (.wrongAccessor function parameter.1))
    let text ← expr.passStored function parameter accessor root code
    Action.pass root accessor
    return text

end Expr

namespace Method

/-- A call must give the right number of arguments, and carry the mutate symbol exactly when
the method changes its receiver. -/
def checkCall (method : Method) (marked : Bool) (arguments : Nat) : Except Error Unit :=
  if arguments ≠ method.arity then .error (.misuse (.methodArgumentCount method arguments))
  else match method.mutates, marked with
    | true, false => .error (.misuse (.withoutMutateSymbol method))
    | false, true => .error (.misuse (.needlessMutateSymbol method))
    | _, _ => .ok ()

/-- The receiver of a method that changes it must be stored in a variable that allows that. -/
def checkReceiver (method : Method) (receiver : Expr) : Action Unit := do
  if method.mutates then
    match receiver.root? with
    | none => throw (.misuse (.methodOfTemporary method))
    | some root => let _ ← Action.writable root

/-- The text of one argument, which is a position or an element that the receiver comes to own. -/
def argument (operand : Operand) (expr : Expr) (code : Form → Action String) : Action String := do
  match operand with
  | .position => return "(" ++ (← code .value) ++ ") as usize"
  | .element => expr.own code

/-- The length is turned into the source's whole numbers; every other call stands as it is. -/
def call (method : Method) (receiver : String) (arguments : List String) : String :=
  let text := receiver ++ "." ++ method.name ++ "(" ++ ", ".intercalate arguments ++ ")"
  match method with
  | .length => "(" ++ text ++ " as i64)"
  | _ => text

end Method

namespace Expr

def vector (items : List String) : String :=
  "vec![" ++ ", ".intercalate items ++ "]"

mutual

/-- The text of an expression in one of the two forms. -/
def code (signatures : Signatures) (form : Form) : Expr → Action String
  | literal value => value.code
  | identifier name => do
    let binding ← Action.readable name
    let text ← Name.code name
    match form with
    | .value => return if binding.isLoan then "(*" ++ text ++ ")" else text
    | .place => return text
  | call function arguments => do
    let signature ← signatures.forCall function arguments.length
    let texts ← argumentCodes signatures function signature.parameters arguments
    Action.note (.call function texts.length)
    return (← Name.code function) ++ "(" ++ ", ".intercalate texts ++ ")"
  | method receiver called marked arguments => do
    called.checkCall marked arguments.length
    called.checkReceiver receiver
    let target ← code signatures .place receiver
    return called.call target (← operandCodes signatures called.operands arguments)
  | field base name => do
    let base ← code signatures .place base
    return base ++ "." ++ (← Name.code name)
  | index base position => do
    let base ← code signatures .place base
    return base ++ "[(" ++ (← code signatures .value position) ++ ") as usize]"
  | unary operator operand => do
    return operator.symbol ++ (← code signatures .value operand)
  | chain first rest => do
    let first ← code signatures .value first
    return first ++ (← chainCode signatures rest)
  | paren inner => do
    let form := if inner.isStored then form else .value
    return "(" ++ (← code signatures form inner) ++ ")"
  | collection items => do
    return "SnVector::from(" ++ vector (← ownedCodes signatures items) ++ ")"

/-- The arguments of a call, each under its parameter. -/
def argumentCodes (signatures : Signatures) (function : String) :
    List (String × Accessor) → List (Accessor × Expr) → Action (List String)
  | parameter :: parameters, (accessor, value) :: arguments => do
    let text ← value.pass function parameter accessor fun form => code signatures form value
    return text :: (← argumentCodes signatures function parameters arguments)
  | _, _ => return []

/-- The arguments of a method, each for its purpose. -/
def operandCodes (signatures : Signatures) :
    List Method.Operand → List Expr → Action (List String)
  | operand :: operands, value :: arguments => do
    let text ← Method.argument operand value fun form => code signatures form value
    return text :: (← operandCodes signatures operands arguments)
  | _, _ => return []

/-- The operators of a chain and the operands behind them. -/
def chainCode (signatures : Signatures) : List (BinaryOp × Expr) → Action String
  | [] => return ""
  | (operator, operand) :: rest => do
    let text ← code signatures .value operand
    return " " ++ operator.symbol ++ " " ++ text ++ (← chainCode signatures rest)

/-- The items of a collection, which comes to own each of them. -/
def ownedCodes (signatures : Signatures) : List Expr → Action (List String)
  | [] => return []
  | item :: items => do
    let text ← item.own fun form => code signatures form item
    return text :: (← ownedCodes signatures items)

end

/-- The text of an expression that is only looked at. -/
def lentCode (signatures : Signatures) (expr : Expr) : Action String :=
  expr.lend fun form => code signatures form expr

/-- The text of an expression whose value finds a new owner. -/
def ownedCode (signatures : Signatures) (expr : Expr) : Action String :=
  expr.own fun form => code signatures form expr

/-- The items of a collection without the container around them. -/
def itemsCode (signatures : Signatures) : Expr → Action String
  | collection items => do return vector (← ownedCodes signatures items)
  | _ => throw (.malformed .notCollection)

end Expr
end Lowering
