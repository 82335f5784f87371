import Lowering.Expr.OfTree
import Lowering.Proofs.Spelling

/-! The nodes of an expression. Every expression that can be read has a standard way of being written,
in which its operators, operands and postfixes stand in the order of the source. -/

namespace Lowering

namespace UnaryOp

def token : UnaryOp → String
  | negate => "-"
  | not => "not"

theorem ofToken?_token (operator : UnaryOp) : ofToken? operator.token = some operator := by
  cases operator <;> rfl

theorem token_of_ofToken? {token : String} {operator : UnaryOp} (known : ofToken? token = some operator) :
    operator.token = token := by
  unfold ofToken? at known
  split at known <;> cases known <;> rfl

end UnaryOp

namespace BinaryOp

def token : BinaryOp → String
  | add => "+"
  | sub => "-"
  | mul => "*"
  | div => "/"
  | rem => "%"
  | eq => "=="
  | ne => "!="
  | lt => "<"
  | le => "<="
  | gt => ">"
  | ge => ">="
  | and => "and"
  | or => "or"

theorem ofToken?_token (operator : BinaryOp) : ofToken? operator.token = some operator := by
  cases operator <;> rfl

theorem token_of_ofToken? {token : String} {operator : BinaryOp} (known : ofToken? token = some operator) :
    operator.token = token := by
  unfold ofToken? at known
  split at known <;> cases known <;> rfl

end BinaryOp

namespace Method

theorem ofName?_name (method : Method) : ofName? method.name = some method := by
  cases method <;> rfl

theorem name_of_ofName? {name : String} {method : Method} (known : ofName? name = some method) :
    method.name = name := by
  unfold ofName? at known
  split at known <;> cases known <;> rfl

end Method

namespace LiteralKind

/-- The tag of a kind. Text without a kind has none. -/
def tag? : LiteralKind → Option String
  | verbatim => none
  | int => some "int_literal"
  | float => some "float_literal"
  | bool => some "bool_literal"
  | str => some "string_literal"
  | char => some "char_literal"

theorem ofTag?_eq_some {tag : String} {kind : LiteralKind} : ofTag? tag = some kind ↔ kind.tag? = some tag := by
  constructor
  · intro known
    unfold ofTag? at known
    split at known <;> cases known <;> rfl
  · intro tagged
    cases kind <;> cases tagged <;> rfl

end LiteralKind

namespace Literal

/-- Text without a kind is not blank. -/
def WellFormed (literal : Literal) : Prop :=
  literal.kind = .verbatim → literal.text.toList.all isBlank = false

def tree (literal : Literal) : Tree :=
  match literal.kind.tag? with
  | none => .text literal.text
  | some tag => .ofEntries [(tag, .text literal.text)]

end Literal

namespace Accessor

/-- The field that names an accessor. Looking is what its absence means. -/
def entries : Accessor → List (String × Tree)
  | look => []
  | accessor => [("accessor", .text accessor.name)]

end Accessor

namespace Expr

/-- Where an expression may stand: within a base expression, within a term, behind a unary operator or
anywhere in an expression. -/
inductive Level where
  | base
  | term
  | operand
  | expression
deriving DecidableEq

namespace Level

/-- The tag of a node that holds what stands at a level. -/
def tag : Level → String
  | base => "base_expression"
  | term => "term"
  | operand | expression => "expression"

/-- The nodes of a term, as they stand at a level from that of terms on. -/
def ofTerm (level : Level) (nodes : List (String × Tree)) : List (String × Tree) :=
  match level with
  | base | term => nodes
  | operand | expression => [("term", .ofEntries nodes)]

/-- The node of a base expression, as it stands at a level. -/
def ofBase (level : Level) (node : String × Tree) : List (String × Tree) :=
  match level with
  | base => [node]
  | term | operand | expression => level.ofTerm [("base_expression", .ofEntries [node])]

theorem ofBase_eq {level : Level} (higher : level ≠ base) (node : String × Tree) :
    level.ofBase node = level.ofTerm [("base_expression", .ofEntries [node])] := by
  cases level with
  | base => exact absurd rfl higher
  | term | operand | expression => rfl

end Level

mutual

/-- The expression can be read where it stands. Operators without parentheses stand only where no
postfix applies to them, and chains nowhere within each other. -/
def WellFormed : Level → Expr → Prop
  | _, literal value => value.WellFormed
  | _, identifier _ => True
  | _, call _ arguments => argumentsWellFormed arguments
  | level, method receiver _ _ arguments =>
    level ≠ .base ∧ receiver.WellFormed .term ∧ allWellFormed arguments
  | level, field base _ => level ≠ .base ∧ base.WellFormed .term
  | level, index base position =>
    level ≠ .base ∧ base.WellFormed .term ∧ position.WellFormed .expression
  | level, unary _ operand => (level = .operand ∨ level = .expression) ∧ operand.WellFormed .operand
  | level, chain first rest =>
    level = .expression ∧ first.WellFormed .operand ∧ rest ≠ [] ∧ operandsWellFormed rest
  | _, paren inner => inner.WellFormed .expression
  | _, collection items => allWellFormed items

def allWellFormed : List Expr → Prop
  | [] => True
  | expr :: rest => expr.WellFormed .expression ∧ allWellFormed rest

def argumentsWellFormed : List (Accessor × Expr) → Prop
  | [] => True
  | (_, value) :: rest => value.WellFormed .expression ∧ argumentsWellFormed rest

def operandsWellFormed : List (BinaryOp × Expr) → Prop
  | [] => True
  | (_, operand) :: rest => operand.WellFormed .operand ∧ operandsWellFormed rest

end

mutual

/-- The nodes of an expression, in the order of the source. -/
def nodes : Level → Expr → List (String × Tree)
  | level, literal value => level.ofBase ("literal", value.tree)
  | level, identifier name => level.ofBase ("identifier", .text name)
  | level, call function arguments =>
    level.ofBase ("function_call", .ofEntries
      [("identifier", .text function), ("function_call_parameters", .ofEntries (argumentNodes arguments))])
  | level, method receiver called marked arguments =>
    level.ofTerm (receiver.nodes .term ++ [("method_call", .ofEntries (("identifier", .text called.name) ::
      (if marked then [("mutate_method_symbol", .text "!")] else []) ++
        [("function_call_parameters", .ofEntries (plainNodes arguments))]))])
  | level, field base name =>
    level.ofTerm (base.nodes .term ++ [("field_access", .ofEntries [("identifier", .text name)])])
  | level, index base position =>
    level.ofTerm (base.nodes .term ++
      [("index_call", .ofEntries [("expression", .ofEntries (position.nodes .expression))])])
  | _, unary operator operand => ("unary_op", .text operator.token) :: operand.nodes .operand
  | _, chain first rest => first.nodes .operand ++ chainNodes rest
  | level, paren inner => level.ofBase ("expression", .ofEntries (inner.nodes .expression))
  | level, collection items =>
    level.ofBase ("literal", .ofEntries [("collection_literal", .ofEntries (itemNodes items))])

def chainNodes : List (BinaryOp × Expr) → List (String × Tree)
  | [] => []
  | (operator, operand) :: rest =>
    ("infix_op", .text operator.token) :: operand.nodes .operand ++ chainNodes rest

def argumentNodes : List (Accessor × Expr) → List (String × Tree)
  | [] => []
  | (accessor, value) :: rest =>
    ("function_call_parameter", .ofEntries (accessor.entries ++
      [("expression", .ofEntries (value.nodes .expression))])) :: argumentNodes rest

/-- The arguments of a method, none of which carries an accessor. -/
def plainNodes : List Expr → List (String × Tree)
  | [] => []
  | value :: rest =>
    ("function_call_parameter", .ofEntries [("expression", .ofEntries (value.nodes .expression))]) :: plainNodes rest

def itemNodes : List Expr → List (String × Tree)
  | [] => []
  | item :: rest => ("expression", .ofEntries (item.nodes .expression)) :: itemNodes rest

end

/-- The standard tree of an expression. -/
def tree (expr : Expr) : Tree :=
  .ofEntries (expr.nodes .expression)

/-- A chain of operands, which is the operand itself where there is only one. -/
def joined (first : Expr) : List (BinaryOp × Expr) → Expr
  | [] => first
  | rest => chain first rest

theorem plainNodes_eq (arguments : List Expr) : plainNodes arguments = argumentNodes (arguments.map (Accessor.look, ·)) := by
  induction arguments with
  | nil => rfl
  | cons argument rest ih => rw [plainNodes, List.map_cons, argumentNodes, ih, Accessor.entries, List.nil_append]

theorem allWellFormed_eq (arguments : List Expr) :
    allWellFormed arguments ↔ argumentsWellFormed (arguments.map (Accessor.look, ·)) := by
  induction arguments with
  | nil => rfl
  | cons argument rest ih => rw [allWellFormed, List.map_cons, argumentsWellFormed, ih]

theorem itemNodes_eq_map (items : List Expr) : itemNodes items = items.map fun item => ("expression", item.tree) := by
  induction items with
  | nil => rfl
  | cons item rest ih => rw [itemNodes, List.map_cons, ih, tree]

theorem allWellFormed_iff {items : List Expr} : allWellFormed items ↔ ∀ item ∈ items, item.WellFormed .expression := by
  induction items with
  | nil => simp [allWellFormed]
  | cons item rest ih => rw [allWellFormed, List.forall_mem_cons, ih]

end Expr
end Lowering
