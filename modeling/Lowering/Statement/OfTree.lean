import Lowering.Trace
import Lowering.Expr.OfTree
import Lowering.Statement.Basic

/-! Reading statements. A statement wraps one node whose tag is its kind, and each kind has a
field set or a sequence of its own in which nothing may be left over. The kind of every
statement is reported as soon as it is known. The readers of compound statements are given the
reader of their bodies. -/

namespace Lowering

/-- A part of a construct that lists expressions and may end with a body. -/
inductive Clause (tree : Tree) where
  | expression (node : Node tree)
  | body (node : Node tree)
  | stray (node : Node tree)

namespace Clause

variable {tree : Tree}

/-- Sorts the nodes of such a construct. A body may only stand last. -/
def ofNodes : List (Node tree) → List (Clause tree)
  | [] => []
  | node :: rest =>
    let clause :=
      if node.tag = "expression" then .expression node
      else if node.tag = "statements" ∧ rest = [] then .body node
      else .stray node
    clause :: ofNodes rest

/-- The expressions and the body that the clauses hold, which is empty where none is written. -/
def readAll (vocabulary : Vocabulary) (readBody : Node tree → Traced (List Statement)) :
    List (Clause tree) → Traced (List Expr × List Statement)
  | [] => return ([], [])
  | .expression node :: rest => do
    let value ← Expr.ofTree node.content
    let (values, statements) ← readAll vocabulary readBody rest
    return (value :: values, statements)
  | .body node :: rest => do
    let statements ← readBody node
    let (values, _) ← readAll vocabulary readBody rest
    return (values, statements)
  | .stray node :: _ => throw (.unknown vocabulary node.tag)

end Clause

namespace Statement

variable {tree : Tree}

def printOfNode (node : Node tree) : Except Error Statement := do
  let values ← (← node.children).mapM fun value => do
    value.checkTag "expression"
    Expr.ofTree value.content
  return .print values

def bindingOfNode (mutable : Bool) (node : Node tree) : Except Error Statement := do
  let fields ← node.fields
  fields.allow ["identifier", "type", "expression"]
  let name ← fields.leaf "identifier"
  let value ← fields.part "expression"
  return .binding mutable name ((fields.get? "type").map Node.content) (← Expr.ofTree value.content)

/-- The target of a set statement: a plain name, or a place built from one. -/
def targetOfFields (fields : Fields tree) : Except Error Expr := do
  match fields.get? "identifier", fields.get? "place_term" with
  | some _, none => return .identifier (← fields.leaf "identifier")
  | none, some place =>
    let target ← Expr.ofTerm place.content
    if target.isPath then return target else throw (.mismatch .setTarget)
  | _, _ => throw (.malformed .setTargetChoice)

def setOfNode (node : Node tree) : Except Error Statement := do
  let fields ← node.fields
  fields.allow ["identifier", "place_term", "assignment_op", "expression"]
  let target ← targetOfFields fields
  let token ← fields.leaf "assignment_op"
  let operator ← Vocabulary.assignmentOperator.require token (AssignOp.ofToken? token)
  let value ← fields.part "expression"
  return .set target operator (← Expr.ofTree value.content)

def runOfNode (node : Node tree) : Except Error Statement := do
  let fields ← node.fields
  fields.allow ["term"]
  let term ← fields.part "term"
  return .run (← Expr.ofTerm term.content)

def returningOfNode (node : Node tree) : Except Error Statement := do
  let fields ← node.fields
  fields.allow ["expression"]
  match fields.get? "expression" with
  | some value => return .returning (some (← Expr.ofTree value.content))
  | none => return .returning none

/-- A statement that is only a keyword holds nothing, or some text that does not matter. -/
def keywordOfNode (statement : Statement) (node : Node tree) : Except Error Statement := do
  if node.content.leaf?.isSome then return statement
  if (← node.children).isEmpty then return statement
  throw (.malformed (.fieldsOfKeyword node.tag))

variable (readBody : Node tree → Traced (List Statement))

/-- The body among a set of fields, which is empty where none is written. -/
def bodyOfFields (fields : Fields tree) : Traced (List Statement) :=
  match fields.get? "statements" with
  | some node => readBody node
  | none => return []

def whileLoopOfNode (node : Node tree) : Traced Statement := do
  let fields ← node.fields
  fields.allow ["expression", "statements"]
  let condition ← fields.part "expression"
  return .whileLoop (← Expr.ofTree condition.content) (← bodyOfFields readBody fields)

def rangeOfExpressions : List Expr → Except Error Range
  | [collection] => .ok (.each collection)
  | [first, last] => .ok (.bounds first last)
  | expressions => .error (.malformed (.forExpressions expressions.length))

def forLoopOfNode (node : Node tree) : Traced Statement := do
  match ← node.children with
  | [] => throw (.malformed .emptyFor)
  | head :: rest =>
    head.checkTag "identifier"
    let name ← head.text
    let (expressions, body) ← Clause.readAll .forField readBody (Clause.ofNodes rest)
    return .forLoop name (← rangeOfExpressions expressions) body

/-- The branches of an if block read so far. -/
structure Branches where
  tested : List (Expr × List Statement) := []
  otherwise : Option (List Statement) := none

/-- Adds a branch whose body has been read. The first one opens the block, and nothing follows
the one without a condition. -/
def Branches.add (branches : Branches) (tag : String) (fields : Fields tree) (body : List Statement) :
    Except Error Branches := do
  let first := branches.tested.isEmpty
  let continues := !first && branches.otherwise.isNone
  if tag = "if_branch" ∧ first ∨ tag = "elseif_branch" ∧ continues then
    let condition ← fields.part "expression"
    let condition ← Expr.ofTree condition.content
    return { branches with tested := branches.tested ++ [(condition, body)] }
  else if tag = "else_branch" ∧ continues then
    if fields.contains "expression" then throw (.malformed .elseCondition)
    return { branches with otherwise := some body }
  else if tag ∈ ["if_branch", "elseif_branch", "else_branch"] then
    throw (.malformed (.misplacedBranch tag))
  else throw (.unknown .ifBranch tag)

def ifBlockOfNode (node : Node tree) : Traced Statement := do
  let branches ← (← node.children).foldlM (fun (branches : Branches) branch => do
    let fields ← branch.fields
    fields.allow ["expression", "statements"]
    branches.add branch.tag fields (← bodyOfFields readBody fields)) {}
  if branches.tested.isEmpty then throw (.malformed .withoutIf)
  return .ifBlock branches.tested branches.otherwise

/-- The arms of a match block read so far. -/
structure Arms where
  tested : List (List Expr × List Statement) := []
  otherwise : Option (List Statement) := none

/-- Adds an arm. One without values is the default and must be the last. -/
def Arms.add (arms : Arms) (arm : Node tree) : Traced Arms := do
  if arm.tag ≠ "match_branch" then throw (.unknown .matchField arm.tag)
  if arms.otherwise.isSome then throw (.malformed .branchAfterDefault)
  let (values, body) ← Clause.readAll .branchField readBody (Clause.ofNodes (← arm.children))
  if values.isEmpty then return { arms with otherwise := some body }
  else return { arms with tested := arms.tested ++ [(values, body)] }

def matchBlockOfNode (node : Node tree) : Traced Statement := do
  match ← node.children with
  | [] => throw (.malformed .emptyMatch)
  | head :: rest =>
    head.checkTag "expression"
    let subject ← Expr.ofTree head.content
    let arms ← rest.foldlM (fun (arms : Arms) arm => arms.add readBody arm) {}
    if arms.tested.isEmpty ∧ arms.otherwise.isNone then throw (.malformed .withoutBranches)
    return .matchBlock subject arms.tested arms.otherwise

mutual

/-- Reads the content of a statement. -/
def ofTree (tree : Tree) : Traced Statement := do
  let node ← tree.single
  let kind ← Vocabulary.statementKind.require node.tag (StatementKind.ofTag? node.tag)
  Traced.note (.statement node.tag)
  match kind with
  | .print => printOfNode node
  | .var => bindingOfNode true node
  | .const => bindingOfNode false node
  | .set => setOfNode node
  | .run => runOfNode node
  | .returning => returningOfNode node
  | .breaking => keywordOfNode .breaking node
  | .continuing => keywordOfNode .continuing node
  | .whileLoop => whileLoopOfNode (fun body => listOfTree body.content) node
  | .forLoop => forLoopOfNode (fun body => listOfTree body.content) node
  | .ifBlock => ifBlockOfNode (fun body => listOfTree body.content) node
  | .matchBlock => matchBlockOfNode (fun body => listOfTree body.content) node
termination_by sizeOf tree
decreasing_by all_goals apply Node.smaller

/-- Reads a sequence of statements in the order of the source. -/
def listOfTree (tree : Tree) : Traced (List Statement) := do
  (← tree.nodes).mapM fun node => do
    node.checkTag "statement"
    ofTree node.content
termination_by sizeOf tree
decreasing_by all_goals apply Node.smaller

end

end Statement
end Lowering
