import Lowering.Tree.Fields
import Lowering.Parameter
import Lowering.Expr.Basic

/-! Reading expressions. A tree nests expressions, terms, base expressions and literals, each
with a tag of its own; all of them become one kind of expression. Whatever is not known at its
level is refused, so nothing is ever left out. -/

namespace Lowering

/-- An operator chain read up to some point: either an operand comes next, with the chain and
the operator before it and the unary operators already read, the last one first; or an operand
has just ended. -/
inductive Expr.Partial where
  | awaiting (before : Option (Expr × List (BinaryOp × Expr) × BinaryOp)) (unaries : List UnaryOp)
  | ended (first : Expr) (rest : List (BinaryOp × Expr))

namespace Expr.Partial

def start : Partial :=
  awaiting none []

/-- Ends the awaited operand. The unary operator read first stands outermost. -/
def supply (before : Option (Expr × List (BinaryOp × Expr) × BinaryOp)) (unaries : List UnaryOp)
    (term : Expr) : Partial :=
  let operand := unaries.foldl (fun inner operator => Expr.unary operator inner) term
  match before with
  | none => ended operand []
  | some (first, rest, operator) => ended first (rest ++ [(operator, operand)])

def finish : Partial → Except Error Expr
  | awaiting _ _ => .error (.malformed .danglingExpression)
  | ended first [] => .ok first
  | ended first rest => .ok (.chain first rest)

end Expr.Partial

/-- A literal holds its text directly, or one node that names its kind. -/
def Literal.ofTree (tree : Tree) : Except Error Literal := do
  match tree.leaf? with
  | some text =>
    if text.toList.all isBlank then throw (.malformed .blankLiteral)
    return ⟨.verbatim, text⟩
  | none =>
    let node ← tree.single
    let kind ← Vocabulary.literalKind.require node.tag (LiteralKind.ofTag? node.tag)
    return ⟨kind, ← node.text⟩

/-- The arguments of a method are handed over as the method decides, so none may carry an
accessor. -/
def Method.plainArguments (method : Method) (arguments : List (Accessor × Expr)) :
    Except Error (List Expr) :=
  arguments.mapM fun (accessor, value) =>
    if accessor = .look then .ok value else .error (.misuse (.methodAccessor method))

namespace Expr

mutual

/-- Reads the content of an expression: operands with unary operators before them and binary
operators between them. -/
def ofTree (tree : Tree) : Except Error Expr := do
  let nodes ← tree.nodes
  if nodes.isEmpty then throw (.malformed .emptyExpression)
  let reached ← nodes.foldlM (fun (reached : Partial) node =>
    match reached, node.tag with
    | .awaiting before unaries, "unary_op" => do
      let token ← node.text
      let operator ← Vocabulary.unaryOperator.require token (UnaryOp.ofToken? token)
      return .awaiting before (operator :: unaries)
    | .awaiting before unaries, "term" => do
      return Partial.supply before unaries (← ofTerm node.content)
    | .ended first rest, "infix_op" => do
      let token ← node.text
      let operator ← Vocabulary.binaryOperator.require token (BinaryOp.ofToken? token)
      return .awaiting (some (first, rest, operator)) []
    | _, tag =>
      if tag ∈ ["term", "unary_op", "infix_op"] then
        .error (.malformed (.misplacedElement tag))
      else .error (.unknown .expressionElement tag)) Partial.start
  reached.finish
termination_by sizeOf tree
decreasing_by all_goals apply Node.smaller

/-- Reads the content of a term: a base expression and what is applied to it, from the inside
out. -/
def ofTerm (tree : Tree) : Except Error Expr := do
  match ← tree.nodes with
  | [] => throw (.malformed .emptyTerm)
  | head :: postfixes =>
    head.checkTag "base_expression"
    let base ← ofBase head.content
    postfixes.foldlM (fun (base : Expr) node =>
      match node.tag with
      | "field_access" => do
        let fields ← node.fields
        fields.allow ["identifier"]
        return .field base (← fields.leaf "identifier")
      | "method_call" => do
        let fields ← node.fields
        fields.allow ["identifier", "mutate_method_symbol", "function_call_parameters"]
        let name ← fields.leaf "identifier"
        let method ← Vocabulary.method.require name (Method.ofName? name)
        let arguments ← match fields.get? "function_call_parameters" with
          | some list => argumentsOfTree list.content
          | none => pure []
        let values ← method.plainArguments arguments
        return .method base method (fields.contains "mutate_method_symbol") values
      | "index_call" => do
        let fields ← node.fields
        fields.allow ["expression"]
        let position ← fields.part "expression"
        return .index base (← ofTree position.content)
      | tag => .error (.unknown .termPostfix tag)) base
termination_by sizeOf tree
decreasing_by all_goals apply Node.smaller

def ofBase (tree : Tree) : Except Error Expr := do
  let node ← tree.single
  match node.tag with
  | "literal" =>
    match node.child with
    | .ok inner =>
      if inner.tag = "collection_literal" then
        let items ← (← inner.children).mapM fun item => do
          item.checkTag "expression"
          ofTree item.content
        return .collection items
      else return .literal (← Literal.ofTree node.content)
    | .error _ => return .literal (← Literal.ofTree node.content)
  | "identifier" => return .identifier (← node.text)
  | "function_call" =>
    let fields ← node.fields
    fields.allow ["identifier", "function_call_parameters"]
    let arguments ← match fields.get? "function_call_parameters" with
      | some list => argumentsOfTree list.content
      | none => pure []
    return .call (← fields.leaf "identifier") arguments
  | "expression" => return .paren (← ofTree node.content)
  | tag => throw (.unknown .baseExpression tag)
termination_by sizeOf tree
decreasing_by all_goals apply Node.smaller

def argumentsOfTree (tree : Tree) : Except Error (List (Accessor × Expr)) := do
  (← tree.nodes).mapM fun node => do
    node.checkTag "function_call_parameter"
    let fields ← node.fields
    fields.allow ["accessor", "expression"]
    let accessor ← Accessor.resolve (← fields.leaf? "accessor")
    let value ← fields.part "expression"
    return (accessor, ← ofTree value.content)
termination_by sizeOf tree
decreasing_by all_goals apply Node.smaller

end

end Expr
end Lowering
