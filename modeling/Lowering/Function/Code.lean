import Lowering.Function.Definition
import Lowering.Statement.Code
import Lowering.Statement.OfTree

/-! Functions with their bodies written out. A function that declares a return type must return
on every path. -/

namespace Lowering

structure Function where
  name : String
  parameters : List Parameter
  resultType : Option Tree
  statements : List StatementCode
  /-- The text of the body from the first column. -/
  body : String
deriving Repr

namespace Function

/-- Writes out statements in turn. -/
def statementCodes (context : BodyContext) (statements : List Statement) :
    Action (List StatementCode) :=
  statements.mapM (Statement.code context)

/-- Declares the parameters in the block that the body's own statements share. -/
def declareParameters (parameters : List Parameter) : Action Unit :=
  parameters.forM fun parameter =>
    Action.declare parameter.name (.parameter parameter.accessor)

/-- Reads the statements of a body, in a scope that they are not yet part of. -/
def readBody (definition : Definition) : Action (List Statement) :=
  match definition.statements with
  | some tree => Action.ofTraced (Statement.listOfTree tree)
  | none => return []

/-- Writes a function out against the signatures of all. -/
def ofDefinition (signatures : Signatures) (definition : Definition) : Traced Function := do
  Traced.note (.assembling definition.name)
  let context : BodyContext := ⟨signatures, definition.resultType.isSome⟩
  let codes ← Action.inNewScope do
    declareParameters definition.parameters
    statementCodes context (← readBody definition)
  if context.hasResult ∧ !codes.any StatementCode.returns then
    throw (.mismatch (.fallsThrough definition.name))
  return {
    name := definition.name
    parameters := definition.parameters
    resultType := definition.resultType
    statements := codes
    body := String.join (codes.map StatementCode.text) }

/-- The function as a Rust item. -/
def code (function : Function) : Except Error String := do
  let parameters ← function.parameters.mapM Parameter.code
  let result ← match function.resultType with
    | some tree => (" -> " ++ ·) <$> DeclaredType.code tree
    | none => pure ""
  let name ← Name.code function.name
  return "fn " ++ name ++ "(" ++ ", ".intercalate parameters ++ ")" ++ result ++ " \x7b\n"
    ++ Layout.indent 1 function.body ++ "\x7d\n"

end Function
end Lowering
