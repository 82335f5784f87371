import Lowering.Name
import Lowering.DeclaredType

/-! Parameters of functions: a name, a declared type, and the accessor under which the caller
hands the value over. -/

namespace Lowering

/-- The accessor of a written token, or looking where none is written. -/
def Accessor.resolve : Option String → Except Error Accessor
  | none => .ok .look
  | some token =>
    match ofToken? token with
    | some accessor => .ok accessor
    | none => .error (.invalidAccessor token)

structure Parameter where
  name : String
  type : Tree
  accessor : Accessor
deriving Repr

namespace Parameter

def ofTree (tree : Tree) : Except Error Parameter := do
  let fields ← Fields.ofTree tree "function_parameter"
  fields.allow ["accessor", "identifier", "type"]
  let token ← fields.leaf? "accessor"
  let name ← fields.leaf "identifier"
  let type ← fields.part "type"
  return ⟨name, type.content, ← Accessor.resolve token⟩

/-- Reads a list of parameters in the order of their declaration. -/
def listOfTree (tree : Tree) : Except Error (List Parameter) := do
  (← tree.nodes).mapM fun node => do
    node.checkTag "function_parameter"
    ofTree node.content

/-- The parameter as it stands in a Rust signature. One that is handed over by value may be
changed by the function. -/
def code (parameter : Parameter) : Except Error String := do
  let name ← Name.code parameter.name
  let type ← DeclaredType.code parameter.type
  match parameter.accessor with
  | .look => return name ++ ": &" ++ type
  | .mutate => return name ++ ": &mut " ++ type
  | .move | .copy => return "mut " ++ name ++ ": " ++ type

end Parameter
end Lowering
