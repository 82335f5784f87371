/-! The methods of the containers, described by what they take and whether they change their
receiver. -/

namespace Lowering

inductive Method where
  | length
  | append
  | insert
  | delete
  | pop
deriving DecidableEq, Repr

namespace Method

def ofName? : String → Option Method
  | "length" => some length
  | "append" => some append
  | "insert" => some insert
  | "delete" => some delete
  | "pop" => some pop
  | _ => none

def name : Method → String
  | length => "length"
  | append => "append"
  | insert => "insert"
  | delete => "delete"
  | pop => "pop"

/-- What an argument of a method is for: a position in the receiver, or an element that the
receiver comes to own. -/
inductive Operand where
  | position
  | element
deriving DecidableEq, Repr

def operands : Method → List Operand
  | length | pop => []
  | append => [.element]
  | delete => [.position]
  | insert => [.position, .element]

def arity (method : Method) : Nat :=
  method.operands.length

/-- Every method but the one that asks for the length changes its receiver. -/
def mutates : Method → Bool
  | length => false
  | append | insert | delete | pop => true

end Method
end Lowering
