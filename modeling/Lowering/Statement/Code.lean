import Lowering.DeclaredType
import Lowering.Expr.Code
import Lowering.Layout
import Lowering.Statement.Basic

/-! The Rust text of statements, written from the first column and ended by a line break, and
with it whether every path through a statement returns. Text in blocks is indented as the
blocks are closed. -/

namespace Lowering

/-- A statement written out. -/
structure StatementCode where
  kind : StatementKind
  text : String
  /-- No path through the statement reaches its end. -/
  returns : Bool
deriving DecidableEq, Repr

/-- The text of a body and whether every path through it returns. -/
structure BodyCode where
  text : String
  returns : Bool
deriving DecidableEq, Repr

/-- What every body in a function depends on. -/
structure BodyContext where
  signatures : Signatures
  hasResult : Bool

namespace BodyCode

def empty : BodyCode :=
  ⟨"", false⟩

/-- A body with a statement put before it. -/
def cons (statement : StatementCode) (rest : BodyCode) : BodyCode :=
  ⟨statement.text ++ rest.text, statement.returns || rest.returns⟩

/-- The body between braces, one level deeper than what stands around it. -/
def block (body : BodyCode) : String :=
  "\x7b\n" ++ body.text ++ "\x7d"

end BodyCode

/-- Alternatives of which one is taken: their texts, and whether each of them returns. -/
structure ChoiceCode where
  texts : List String
  returns : Bool
deriving DecidableEq, Repr

namespace ChoiceCode

/-- No alternative yet, so none that fails to return. -/
def empty : ChoiceCode :=
  ⟨[], true⟩

def cons (head : String) (body : BodyCode) (rest : ChoiceCode) : ChoiceCode :=
  ⟨(head ++ body.block) :: rest.texts, body.returns && rest.returns⟩

/-- The alternatives with the one taken when no test holds. Without one, a path leads past all
of them. -/
def close (choice : ChoiceCode) (otherwise : Option BodyCode) : ChoiceCode :=
  match otherwise with
  | none => ⟨choice.texts, false⟩
  | some body => ⟨choice.texts ++ [body.block], choice.returns && body.returns⟩

/-- The alternatives in one line of tests. -/
def text (choice : ChoiceCode) : String :=
  " else ".intercalate choice.texts ++ "\n"

end ChoiceCode

namespace Statement

def printCode (context : BodyContext) (values : List Expr) : Action String := do
  let texts ← values.mapM (Expr.lentCode context.signatures)
  return "Printer::stdout()" ++ String.join (texts.map fun text => ".write(" ++ text ++ ")")
    ++ ".endl();\n"

/-- The declaration of a variable. The collection written out for a declared type becomes
whatever container the type names. -/
def bindingCode (context : BodyContext) (mutable : Bool) (name : String)
    (type : Option Tree) (value : Expr) : Action String := do
  let text ← match value, type with
    | .collection _, some _ => (· ++ ".into()") <$> value.itemsCode context.signatures
    | _, _ => value.ownedCode context.signatures
  Action.declare name (.declared mutable)
  let annotation ← match type with
    | some tree => (": " ++ ·) <$> DeclaredType.code tree
    | none => pure ""
  let keyword := if mutable then "let mut " else "let "
  return keyword ++ (← Name.code name) ++ annotation ++ " = " ++ text ++ ";\n"

/-- An assignment. The target must be mutable before the value is looked at, and whole once
the value is complete. -/
def setCode (context : BodyContext) (target : Expr) (operator : AssignOp) (value : Expr) :
    Action String := do
  match target.root? with
  | none => throw (.malformed .setTargetNotPlace)
  | some root =>
    let binding ← Action.writable root
    let text ← value.ownedCode context.signatures
    let target ← match target, binding.isLoan with
      | .identifier name, true => ("*" ++ ·) <$> Name.code name
      | _, _ => target.code context.signatures .place
    return target ++ " " ++ operator.symbol ++ " " ++ text ++ ";\n"

/-- A return carries a value exactly where the function declares a type for it. -/
def returningCode (context : BodyContext) (value : Option Expr) : Action String := do
  match value, context.hasResult with
  | some value, true => return "return " ++ (← value.ownedCode context.signatures) ++ ";\n"
  | none, false => return "return;\n"
  | some _, false => throw (.mismatch .unwantedValue)
  | none, true => throw (.mismatch .withoutValue)

def jumpCode (keyword : String) : Action String := do
  let inLoop ← Action.inspect fun scope => .ok scope.isInLoop
  if inLoop then return keyword ++ ";\n" else throw (.misuse (.outsideLoop keyword))

/-- What a for loop runs through, and whether its variable refers to an element. -/
def rangeCode (context : BodyContext) : Range → Action (String × Bool)
  | .bounds first last => do
    let first ← first.code context.signatures .value
    let last ← last.code context.signatures .value
    return ("(" ++ first ++ ")..(" ++ last ++ ")", false)
  | .each collection => do
    if collection.isStored then
      return ((← collection.code context.signatures .place) ++ ".iter()", true)
    else return ("(" ++ (← collection.code context.signatures .value) ++ ").iter()", true)

/-- The subject of a match, always as a reference. -/
def subjectCode (context : BodyContext) (subject : Expr) : Action String := do
  if subject.isStored then subject.lentCode context.signatures
  else return "&(" ++ (← subject.code context.signatures .value) ++ ")"

/-- The test of one value against the subject. -/
def testCode (context : BodyContext) (value : Expr) : Action String := do
  let text ← value.code context.signatures .value
  return "*match_subject == " ++ (if value.isChain then "(" ++ text ++ ")" else text)

/-- A body in a block of its own, one level deeper. -/
def inBody (body : Action BodyCode) : Action BodyCode := do
  let code ← Action.inBlock body
  return { code with text := Layout.indent 1 code.text }

mutual

/-- Writes a statement out. -/
def code (context : BodyContext) : Statement → Action StatementCode
  | print values => do
    return ⟨.print, ← printCode context values, false⟩
  | binding mutable name type value => do
    let text ← bindingCode context mutable name type value
    return ⟨if mutable then .var else .const, text, false⟩
  | set target operator value => do
    return ⟨.set, ← setCode context target operator value, false⟩
  | run term => do
    return ⟨.run, (← term.code context.signatures .value) ++ ";\n", false⟩
  | returning value => do
    return ⟨.returning, ← returningCode context value, true⟩
  | breaking => do
    return ⟨.breaking, ← jumpCode "break", false⟩
  | continuing => do
    return ⟨.continuing, ← jumpCode "continue", false⟩
  | whileLoop condition body => do
    -- The condition runs in every round, so what it does belongs to the loop.
    let (test, block) ← Action.inLoop do
      let test ← condition.code context.signatures .value
      return (test, ← inBody (listCode context body))
    if condition.isTrue then
      return ⟨.whileLoop, "loop " ++ block.block ++ "\n", block.returns && !bodyLeavesLoop body⟩
    else return ⟨.whileLoop, "while " ++ test ++ " " ++ block.block ++ "\n", false⟩
  | forLoop name range body => do
    let (header, borrowed) ← rangeCode context range
    let block ← Action.attempt (Action.inLoop do
      Action.declare name (.loopItem borrowed)
      inBody (listCode context body))
    let target ← Name.code name
    let block ← block
    return ⟨.forLoop, "for " ++ target ++ " in " ++ header ++ " " ++ block.block ++ "\n", false⟩
  | ifBlock branches otherwise => do
    let choice ← branchCodes context branches
    let choice := choice.close (← defaultCode context otherwise)
    return ⟨.ifBlock, choice.text, choice.returns⟩
  | matchBlock subject arms otherwise => do
    let subject ← subjectCode context subject
    let choice ← armCodes context arms
    let choice := choice.close (← defaultCode context otherwise)
    let inner := "let match_subject = " ++ subject ++ ";\n" ++ choice.text
    return ⟨.matchBlock, "\x7b\n" ++ Layout.indent 1 inner ++ "\x7d\n", choice.returns⟩

/-- Writes out statements that follow each other. -/
def listCode (context : BodyContext) : List Statement → Action BodyCode
  | [] => return .empty
  | statement :: rest => do
    let first ← code context statement
    return .cons first (← listCode context rest)

def branchCodes (context : BodyContext) :
    List (Expr × List Statement) → Action ChoiceCode
  | [] => return .empty
  | (condition, body) :: rest => do
    let test ← condition.code context.signatures .value
    let block ← inBody (listCode context body)
    return .cons ("if " ++ test ++ " ") block (← branchCodes context rest)

def armCodes (context : BodyContext) :
    List (List Expr × List Statement) → Action ChoiceCode
  | [] => return .empty
  | (values, body) :: rest => do
    let tests ← values.mapM (testCode context)
    let block ← inBody (listCode context body)
    return .cons ("if " ++ " || ".intercalate tests ++ " ") block (← armCodes context rest)

def defaultCode (context : BodyContext) : Option (List Statement) → Action (Option BodyCode)
  | none => return none
  | some body => some <$> inBody (listCode context body)

end

/-- Writes out a body as a block. -/
def bodyCode (context : BodyContext) (body : List Statement) : Action BodyCode :=
  inBody (listCode context body)

end Statement
end Lowering
