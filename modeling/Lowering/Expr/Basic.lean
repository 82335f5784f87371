import Lowering.Accessor
import Lowering.Method
import Lowering.Operator
import Lowering.Literal

/-! Expressions. Operator chains stay flat, in the order of the source, since which operator
binds tighter is left to the language that they are written out in. -/

namespace Lowering

inductive Expr where
  | literal (value : Literal)
  | identifier (name : String)
  | call (function : String) (arguments : List (Accessor × Expr))
  /-- `marked` records that the call carries the mutate symbol. -/
  | method (receiver : Expr) (method : Method) (marked : Bool) (arguments : List Expr)
  | field (base : Expr) (name : String)
  | index (base position : Expr)
  | unary (operator : UnaryOp) (operand : Expr)
  | chain (first : Expr) (rest : List (BinaryOp × Expr))
  | paren (inner : Expr)
  /-- A collection written out. What container it becomes depends on where it stands. -/
  | collection (items : List Expr)
deriving Repr, Inhabited

namespace Expr

/-- The variable whose storage the expression names, if it names storage at all rather than a
temporary value. -/
def root? : Expr → Option String
  | identifier name => some name
  | field base _ => base.root?
  | index base _ => base.root?
  | paren inner => inner.root?
  | _ => none

/-- The value lies in a variable's storage, which goes on owning it. -/
def isStored (expr : Expr) : Bool :=
  expr.root?.isSome

/-- A variable reached through fields and indexes only, without parentheses. -/
def isPath : Expr → Bool
  | identifier _ => true
  | field base _ => base.isPath
  | index base _ => base.isPath
  | _ => false

def isChain : Expr → Bool
  | chain _ _ => true
  | _ => false

/-- The literal true, possibly in parentheses. -/
def isTrue : Expr → Bool
  | literal value => value.isTrue
  | paren inner => inner.isTrue
  | _ => false

end Expr
end Lowering
