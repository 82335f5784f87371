import Lowering.Function.Signature
import Lowering.Parameter
import Lowering.Trace

/-! Functions as they are read from a document, before their bodies are looked at. -/

namespace Lowering

structure Definition where
  name : String
  parameters : List Parameter
  resultType : Option Tree
  statements : Option Tree
deriving Repr

namespace Definition

def signature (definition : Definition) : Signature :=
  ⟨definition.parameters.map fun parameter => (parameter.name, parameter.accessor),
    definition.resultType.isSome⟩

/-- Reads the content of a function. -/
def ofTree (tree : Tree) : Except Error Definition := do
  let fields ← Fields.ofTree tree "function"
  fields.allow ["identifier", "function_parameters", "type", "statements"]
  let parameters ← match fields.get? "function_parameters" with
    | some list => Parameter.listOfTree list.content
    | none => pure []
  let name ← fields.leaf "identifier"
  return ⟨name, parameters, (fields.get? "type").map Node.content,
    (fields.get? "statements").map Node.content⟩

/-- The document of a tree, which may stand alone in a sequence. -/
def document : Tree → Except Error Tree
  | .sequence [tree] => .ok tree
  | .sequence items => .error (.malformed (.documents items.length))
  | tree => .ok tree

/-- Reads every function of a document in order. -/
def listOfTree (tree : Tree) : Except Error (List Definition) := do
  let node ← (← document tree).node
  node.checkTag "functions"
  (← node.children).mapM fun function => do
    function.checkTag "function"
    ofTree function.content

end Definition

/-- The signatures of functions, whose names must be distinct. -/
def Signatures.ofDefinitions (definitions : List Definition) : Except Error Signatures :=
  definitions.foldlM (fun signatures definition => signatures.insert definition.name definition.signature) {}

/-- Collects the signatures and reports how many there are. -/
def Signatures.gather (definitions : List Definition) : Traced Signatures := do
  let signatures ← ofDefinitions definitions
  Traced.note (.collected signatures.size)
  return signatures

end Lowering
