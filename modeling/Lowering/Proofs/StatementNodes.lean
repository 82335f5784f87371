import Lowering.Proofs.ExprParts
import Lowering.Proofs.ExprSpelling

/-! The nodes of a statement. Every statement that can be read has a standard way of being written. -/

namespace Lowering

open Lowering.Tree (ifGiven)

theorem AssignOp.ofToken?_eq_some {token : String} {operator : AssignOp} :
    ofToken? token = some operator ↔ operator.symbol = token := by
  constructor
  · intro known
    unfold ofToken? at known
    split at known <;> cases known <;> rfl
  · rintro rfl
    cases operator <;> rfl

theorem StatementKind.ofTag?_eq_some {tag : String} {kind : StatementKind} : ofTag? tag = some kind ↔ kind.tag = tag := by
  constructor
  · intro known
    unfold ofTag? at known
    split at known <;> cases known <;> rfl
  · rintro rfl
    exact ofTag?_tag kind

/-- The node of the target of an assignment: a plain name, or a place built from one. -/
def Expr.targetNode : Expr → String × Tree
  | identifier name => ("identifier", .text name)
  | target => ("place_term", .ofEntries (target.nodes .term))

namespace Statement

mutual

/-- The statement can be read: its expressions can, and it has the parts that it must have. -/
def WellFormed : Statement → Prop
  | print values => Expr.allWellFormed values
  | binding _ _ _ value => value.WellFormed .expression
  | set target _ value => (target.isPath = true ∧ target.WellFormed .term) ∧ value.WellFormed .expression
  | run term => term.WellFormed .term
  | returning value => ∀ given ∈ value, given.WellFormed .expression
  | breaking | continuing => True
  | whileLoop condition body => condition.WellFormed .expression ∧ bodyWellFormed body
  | forLoop _ range body => Expr.allWellFormed range.expressions ∧ bodyWellFormed body
  | ifBlock branches otherwise => branches ≠ [] ∧ branchesWellFormed branches ∧ defaultWellFormed otherwise
  | matchBlock subject arms otherwise => subject.WellFormed .expression ∧ (arms = [] → otherwise.isSome = true) ∧
      armsWellFormed arms ∧ defaultWellFormed otherwise

def bodyWellFormed : List Statement → Prop
  | [] => True
  | statement :: rest => statement.WellFormed ∧ bodyWellFormed rest

def branchesWellFormed : List (Expr × List Statement) → Prop
  | [] => True
  | (condition, body) :: rest =>
    (condition.WellFormed .expression ∧ bodyWellFormed body) ∧ branchesWellFormed rest

/-- An arm has some value, since one without values is the default. -/
def armsWellFormed : List (List Expr × List Statement) → Prop
  | [] => True
  | (values, body) :: rest => (values ≠ [] ∧ Expr.allWellFormed values ∧ bodyWellFormed body) ∧ armsWellFormed rest

def defaultWellFormed : Option (List Statement) → Prop
  | none => True
  | some body => bodyWellFormed body

end

mutual

/-- The content of the node of a statement. -/
def content : Statement → Tree
  | print values => .ofEntries (Expr.itemNodes values)
  | binding _ name type value => .ofEntries (("identifier", .text name) :: ifGiven "type" type ++ [("expression", value.tree)])
  | set target operator value =>
    .ofEntries [target.targetNode, ("assignment_op", .text operator.symbol), ("expression", value.tree)]
  | run term => .ofEntries [("term", .ofEntries (term.nodes .term))]
  | returning value => .ofEntries (ifGiven "expression" (value.map Expr.tree))
  | breaking | continuing => .text ""
  | whileLoop condition body => .ofEntries [("expression", condition.tree), ("statements", .ofEntries (bodyNodes body))]
  | forLoop name range body =>
    .ofEntries (("identifier", .text name) :: Expr.itemNodes range.expressions ++
      [("statements", .ofEntries (bodyNodes body))])
  | ifBlock branches otherwise => .ofEntries (branchNodes "if_branch" branches ++ elseNodes otherwise)
  | matchBlock subject arms otherwise =>
    .ofEntries (("expression", subject.tree) :: armNodes arms ++ defaultNodes otherwise)

def bodyNodes : List Statement → List (String × Tree)
  | [] => []
  | statement :: rest => ("statement", .ofEntries [(statement.kind.tag, statement.content)]) :: bodyNodes rest

/-- The nodes of branches with conditions, the first of which has the tag given. -/
def branchNodes : String → List (Expr × List Statement) → List (String × Tree)
  | _, [] => []
  | tag, (condition, body) :: rest =>
    (tag, .ofEntries [("expression", condition.tree), ("statements", .ofEntries (bodyNodes body))]) ::
      branchNodes "elseif_branch" rest

def elseNodes : Option (List Statement) → List (String × Tree)
  | none => []
  | some body => [("else_branch", .ofEntries [("statements", .ofEntries (bodyNodes body))])]

def armNodes : List (List Expr × List Statement) → List (String × Tree)
  | [] => []
  | (values, body) :: rest =>
    ("match_branch", .ofEntries (Expr.itemNodes values ++ [("statements", .ofEntries (bodyNodes body))])) :: armNodes rest

def defaultNodes : Option (List Statement) → List (String × Tree)
  | none => []
  | some body => [("match_branch", .ofEntries [("statements", .ofEntries (bodyNodes body))])]

end

/-- The standard tree of a statement. -/
def tree (statement : Statement) : Tree :=
  .ofEntries [(statement.kind.tag, statement.content)]

theorem bodyNodes_eq_map (body : List Statement) :
    bodyNodes body = body.map fun statement => ("statement", statement.tree) := by
  induction body with
  | nil => rfl
  | cons statement rest ih => rw [bodyNodes, List.map_cons, ih, tree]

theorem bodyWellFormed_iff {body : List Statement} : bodyWellFormed body ↔ ∀ statement ∈ body, statement.WellFormed := by
  induction body with
  | nil => simp [bodyWellFormed]
  | cons statement rest ih => rw [bodyWellFormed, List.forall_mem_cons, ih]

end Statement
end Lowering
