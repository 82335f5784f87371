import Lowering.Expr.Basic
import Lowering.Tree.Basic

/-! Statements. A body is a list of statements, and leaving a body out means an empty one. -/

namespace Lowering

inductive StatementKind where
  | print
  | var
  | const
  | set
  | run
  | returning
  | breaking
  | continuing
  | whileLoop
  | forLoop
  | ifBlock
  | matchBlock
deriving DecidableEq, Repr

namespace StatementKind

def tag : StatementKind → String
  | print => "print_statement"
  | var => "var_statement"
  | const => "const_statement"
  | set => "set_statement"
  | run => "run_statement"
  | returning => "return_statement"
  | breaking => "break_statement"
  | continuing => "continue_statement"
  | whileLoop => "while_loop"
  | forLoop => "for_loop"
  | ifBlock => "if_block"
  | matchBlock => "match_block"

def ofTag? : String → Option StatementKind
  | "print_statement" => some print
  | "var_statement" => some var
  | "const_statement" => some const
  | "set_statement" => some set
  | "run_statement" => some run
  | "return_statement" => some returning
  | "break_statement" => some breaking
  | "continue_statement" => some continuing
  | "while_loop" => some whileLoop
  | "for_loop" => some forLoop
  | "if_block" => some ifBlock
  | "match_block" => some matchBlock
  | _ => none

theorem ofTag?_tag (kind : StatementKind) : ofTag? kind.tag = some kind := by
  cases kind <;> rfl

end StatementKind

/-- What a for loop runs through. -/
inductive Range where
  /-- The whole numbers from one bound up to the other, which is left out. -/
  | bounds (first last : Expr)
  | each (collection : Expr)
deriving Repr

inductive Statement where
  | print (values : List Expr)
  /-- A new variable. Its declared type stays a tree until it is written out. -/
  | binding (mutable : Bool) (name : String) (type : Option Tree) (value : Expr)
  | set (target : Expr) (operator : AssignOp) (value : Expr)
  | run (term : Expr)
  | returning (value : Option Expr)
  | breaking
  | continuing
  | whileLoop (condition : Expr) (body : List Statement)
  | forLoop (name : String) (range : Range) (body : List Statement)
  | ifBlock (branches : List (Expr × List Statement)) (otherwise : Option (List Statement))
  | matchBlock (subject : Expr) (arms : List (List Expr × List Statement))
      (otherwise : Option (List Statement))
deriving Repr

namespace Statement

def kind : Statement → StatementKind
  | print _ => .print
  | binding mutable _ _ _ => if mutable then .var else .const
  | set _ _ _ => .set
  | run _ => .run
  | returning _ => .returning
  | breaking => .breaking
  | continuing => .continuing
  | whileLoop _ _ => .whileLoop
  | forLoop _ _ _ => .forLoop
  | ifBlock _ _ => .ifBlock
  | matchBlock _ _ _ => .matchBlock

mutual

/-- A break in the statement leaves the loop that directly holds it. A break in an inner loop
leaves the inner one. -/
def leavesLoop : Statement → Bool
  | breaking => true
  | ifBlock branches otherwise => branchLeavesLoop branches || defaultLeavesLoop otherwise
  | matchBlock _ arms otherwise => armLeavesLoop arms || defaultLeavesLoop otherwise
  | _ => false

def bodyLeavesLoop : List Statement → Bool
  | [] => false
  | statement :: rest => leavesLoop statement || bodyLeavesLoop rest

def branchLeavesLoop : List (Expr × List Statement) → Bool
  | [] => false
  | (_, body) :: rest => bodyLeavesLoop body || branchLeavesLoop rest

def armLeavesLoop : List (List Expr × List Statement) → Bool
  | [] => false
  | (_, body) :: rest => bodyLeavesLoop body || armLeavesLoop rest

def defaultLeavesLoop : Option (List Statement) → Bool
  | none => false
  | some body => bodyLeavesLoop body

end

end Statement
end Lowering
