import Lowering.Proofs.ExprGrammar

/-! The readers of expressions, node by node. -/

namespace Lowering

theorem require_ok {vocabulary : Vocabulary} {token : String} {found : Option α} {value : α} :
    vocabulary.require token found = .ok value ↔ found = some value := by
  unfold Vocabulary.require
  split <;> simp

theorem Fields.among_nil {tree : Tree} (fields : Fields tree) : fields.among [] = [] := rfl

theorem Fields.among_cons {tree : Tree} (fields : Fields tree) (tag : String) (tags : List String) :
    fields.among (tag :: tags) = Tree.ifGiven tag (fields.look tag) ++ fields.among tags := by
  unfold among
  rw [List.filterMap_cons]
  cases fields.look tag <;> rfl

theorem Literal.ofTree_ok {tree : Tree} {literal : Literal} : ofTree tree = .ok literal ↔ Written tree literal := by
  unfold ofTree
  constructor
  · intro read
    cases held : tree.leaf? with
    | some text =>
      rw [held] at read
      cases visible : text.toList.all isBlank with
      | true =>
        simp only [visible] at read
        cases read
      | false =>
        simp only [visible] at read
        cases read
        exact .verbatim held visible
    | none =>
      rw [held] at read
      obtain ⟨node, alone, read⟩ := except_bind_ok.mp read
      obtain ⟨kind, named, read⟩ := except_bind_ok.mp read
      obtain ⟨text, spelled, made⟩ := except_bind_ok.mp read
      cases made
      exact .kinded (Tree.single_ok.mp alone) (require_ok.mp named) (Node.text_ok.mp spelled)
  · intro written
    cases written with
    | verbatim held visible =>
      rw [held]
      simp [visible]
    | kinded listed known held =>
      obtain ⟨smaller, alone⟩ := Tree.exists_single listed
      rw [listed.leaf?_eq_none]
      simp only [except_bind_ok]
      exact ⟨_, alone, _, require_ok.mpr known, _, Node.text_ok.mpr held, rfl⟩

theorem Literal.Written.not_collection {content inner : Tree} {literal : Literal} (written : Written content literal) :
    ¬ content.Lists [("collection_literal", inner)] := by
  intro alone
  cases written with
  | verbatim held => cases held.symm.trans alone.leaf?_eq_none
  | kinded listed known =>
    cases listed.unique alone
    cases known

theorem Accessor.resolve_ok {token : String} {accessor : Accessor} :
    resolve (some token) = .ok accessor ↔ ofToken? token = some accessor := by
  simp only [resolve]
  split <;> simp [*]

theorem Method.plainArguments_ok {method : Method} {arguments : List (Accessor × Expr)} {values : List Expr} :
    method.plainArguments arguments = .ok values ↔ arguments = values.map (Accessor.look, ·) := by
  unfold plainArguments
  rw [mapM_ok]
  constructor
  · intro each
    induction each with
    | nil => rfl
    | @cons argument value _ _ first _ ih =>
      obtain ⟨accessor, expr⟩ := argument
      dsimp only at first
      split at first
      next look =>
        cases first
        rw [ih, look, List.map_cons]
      next => cases first
  · rintro rfl
    rw [List.forall₂_map_left_iff]
    exact List.forall₂_same.mpr fun _ _ => rfl

/-- The accessor of a field is read from what the field holds, and from its absence. -/
theorem Accessor.ofField_ok {tree : Tree} {fields : Fields tree} {tag : String} {accessor : Accessor} :
    (fields.leaf? tag >>= resolve) = .ok accessor ↔ Written (fields.look tag) accessor := by
  unfold Fields.leaf?
  rw [Fields.contains_eq]
  cases given : fields.look tag with
  | none =>
    constructor
    · intro read
      cases read
      exact .absent
    · intro written
      cases written
      rfl
  | some content =>
    simp only [Option.isSome_some, if_true, except_bind_ok, except_map_ok, Fields.leaf_ok, given, Option.some.injEq]
    constructor
    · rintro ⟨_, ⟨text, ⟨_, rfl, held⟩, rfl⟩, read⟩
      exact .named held (resolve_ok.mp read)
    · intro written
      cases written with
      | named held known => exact ⟨_, ⟨_, ⟨_, rfl, held⟩, rfl⟩, resolve_ok.mpr known⟩

namespace Expr

variable {tree : Tree}

/-- How the nodes of an expression are taken one by one. -/
def Partial.take (reached : Partial) (node : Node tree) : Except Error Partial :=
  match reached, node.tag with
  | .awaiting before unaries, "unary_op" => do
    let token ← node.text
    let operator ← Vocabulary.unaryOperator.require token (UnaryOp.ofToken? token)
    return .awaiting before (operator :: unaries)
  | .awaiting before unaries, "term" => do
    return Partial.supply before unaries (← ofTerm node.content)
  | .ended first rest, "infix_op" => do
    let token ← node.text
    let operator ← Vocabulary.binaryOperator.require token (BinaryOp.ofToken? token)
    return .awaiting (some (first, rest, operator)) []
  | _, tag =>
    if tag ∈ ["term", "unary_op", "infix_op"] then .error (.malformed (.misplacedElement tag))
    else .error (.unknown .expressionElement tag)

def ofNodes (nodes : List (Node tree)) : Except Error Expr := do
  let reached ← nodes.foldlM Partial.take Partial.start
  reached.finish

theorem ofTree_ok {expr : Expr} :
    ofTree tree = .ok expr ↔ ∃ nodes, tree.nodes = .ok nodes ∧ nodes ≠ [] ∧ ofNodes nodes = .ok expr := by
  rw [ofTree, except_bind_ok]
  constructor
  · rintro ⟨nodes, listed, read⟩
    cases nodes with
    | nil => cases read
    | cons node nodes => exact ⟨_, listed, List.cons_ne_nil _ _, read⟩
  · rintro ⟨nodes, listed, some, read⟩
    cases nodes with
    | nil => exact absurd rfl some
    | cons node nodes => exact ⟨_, listed, read⟩

/-- How a node is applied to what stands before it in a term. -/
def apply (base : Expr) (node : Node tree) : Except Error Expr :=
  match node.tag with
  | "field_access" => do
    let fields ← node.fields
    fields.allow ["identifier"]
    return .field base (← fields.leaf "identifier")
  | "method_call" => do
    let fields ← node.fields
    fields.allow ["identifier", "mutate_method_symbol", "function_call_parameters"]
    let name ← fields.leaf "identifier"
    let method ← Vocabulary.method.require name (Method.ofName? name)
    let arguments ← match fields.get? "function_call_parameters" with
      | some list => argumentsOfTree list.content
      | none => pure []
    let values ← method.plainArguments arguments
    return .method base method (fields.contains "mutate_method_symbol") values
  | "index_call" => do
    let fields ← node.fields
    fields.allow ["expression"]
    let position ← fields.part "expression"
    return .index base (← ofTree position.content)
  | tag => .error (.unknown .termPostfix tag)

def termOfNodes (nodes : List (Node tree)) : Except Error Expr :=
  match nodes with
  | [] => .error (.malformed .emptyTerm)
  | head :: postfixes => do
    head.checkTag "base_expression"
    let base ← ofBase head.content
    postfixes.foldlM apply base

theorem ofTerm_ok {expr : Expr} :
    ofTerm tree = .ok expr ↔ ∃ nodes, tree.nodes = .ok nodes ∧ termOfNodes nodes = .ok expr := by
  rw [ofTerm, except_bind_ok]
  apply exists_congr
  intro nodes
  cases nodes <;> rfl

theorem termOfNodes_snoc {nodes : List (Node tree)} (some : nodes ≠ []) (node : Node tree) {expr : Expr} :
    termOfNodes (nodes ++ [node]) = .ok expr ↔ ∃ base, termOfNodes nodes = .ok base ∧ apply base node = .ok expr := by
  cases nodes with
  | nil => exact absurd rfl some
  | cons head postfixes =>
    simp only [List.cons_append, termOfNodes, List.foldlM_append, List.foldlM_cons, List.foldlM_nil, except_bind_ok,
      bind_pure]
    constructor
    · rintro ⟨nothing, checked, first, begun, base, reached, applied⟩
      exact ⟨base, ⟨nothing, checked, first, begun, reached⟩, applied⟩
    · rintro ⟨base, ⟨nothing, checked, first, begun, reached⟩, applied⟩
      exact ⟨nothing, checked, first, begun, base, reached, applied⟩

def itemOfNode (node : Node tree) : Except Error Expr := do
  node.checkTag "expression"
  ofTree node.content

def literalOfNode (node : Node tree) : Except Error Expr :=
  match node.child with
  | .ok inner => do
    if inner.tag = "collection_literal" then
      let items ← (← inner.children).mapM itemOfNode
      return .collection items
    else return .literal (← Literal.ofTree node.content)
  | .error _ => do
    return .literal (← Literal.ofTree node.content)

/-- How the node of a base expression is read. -/
def baseOfNode (node : Node tree) : Except Error Expr :=
  match node.tag with
  | "literal" => literalOfNode node
  | "identifier" => do
    return .identifier (← node.text)
  | "function_call" => do
    let fields ← node.fields
    fields.allow ["identifier", "function_call_parameters"]
    let arguments ← match fields.get? "function_call_parameters" with
      | some list => argumentsOfTree list.content
      | none => pure []
    return .call (← fields.leaf "identifier") arguments
  | "expression" => do
    return .paren (← ofTree node.content)
  | tag => .error (.unknown .baseExpression tag)

theorem ofBase_ok {expr : Expr} :
    ofBase tree = .ok expr ↔ ∃ node, tree.single = .ok node ∧ baseOfNode node = .ok expr := by
  rw [ofBase, except_bind_ok]
  rfl

def argumentOfNode (node : Node tree) : Except Error (Accessor × Expr) := do
  node.checkTag "function_call_parameter"
  let fields ← node.fields
  fields.allow ["accessor", "expression"]
  let accessor ← Accessor.resolve (← fields.leaf? "accessor")
  let value ← fields.part "expression"
  return (accessor, ← ofTree value.content)

theorem argumentsOfTree_ok {arguments : List (Accessor × Expr)} : argumentsOfTree tree = .ok arguments ↔
    ∃ nodes, tree.nodes = .ok nodes ∧ nodes.mapM argumentOfNode = .ok arguments := by
  rw [argumentsOfTree, except_bind_ok]
  rfl

end Expr
end Lowering
