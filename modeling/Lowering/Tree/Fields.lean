import Lowering.Tree.Node

/-! Sets of fields: sequences of nodes with distinct tags, looked up by tag. The order in which
the fields stand does not matter to any question asked of them. -/

namespace Lowering

/-- The fields of a construct, which is named in messages about them. -/
structure Fields (tree : Tree) where
  construct : String
  nodes : List (Node tree)

namespace Fields

variable {tree : Tree}

/-- The first tag of a list that repeats an earlier one. -/
def firstRepeat? : (seen tags : List String) → Option String
  | _, [] => none
  | seen, tag :: tags => if tag ∈ seen then some tag else firstRepeat? (tag :: seen) tags

/-- Nodes with distinct tags, as fields. -/
def ofNodes (construct : String) (nodes : List (Node tree)) : Except Error (Fields tree) :=
  match firstRepeat? [] (nodes.map Node.tag) with
  | some tag => .error (.duplicateField construct tag)
  | none => .ok ⟨construct, nodes⟩

/-- Reads a sequence whose tags are distinct. The shape of every node is judged before any
repetition. -/
def ofTree (tree : Tree) (construct : String) : Except Error (Fields tree) := do
  ofNodes construct (← tree.nodes)

def size (fields : Fields tree) : Nat :=
  fields.nodes.length

def isEmpty (fields : Fields tree) : Bool :=
  fields.nodes.isEmpty

/-- The tags in ascending order of their code points. -/
def tags (fields : Fields tree) : List String :=
  (fields.nodes.map Node.tag).mergeSort fun first second => !decide (second < first)

def get? (fields : Fields tree) (tag : String) : Option (Node tree) :=
  fields.nodes.find? fun node => node.tag = tag

def contains (fields : Fields tree) (tag : String) : Bool :=
  (fields.get? tag).isSome

def part (fields : Fields tree) (tag : String) : Except Error (Node tree) :=
  match fields.get? tag with
  | some node => .ok node
  | none => .error (.malformed (.missingField fields.construct tag))

def leaf (fields : Fields tree) (tag : String) : Except Error String := do
  let node ← fields.part tag
  match node.content.leaf? with
  | some text => return text
  | none => throw (.malformed (.fieldNotText fields.construct tag node.content.shape))

/-- The text of a field that may be left out. -/
def leaf? (fields : Fields tree) (tag : String) : Except Error (Option String) :=
  if fields.contains tag then some <$> fields.leaf tag else return none

/-- Refuses any field but those allowed; of several the one with the least tag is named. -/
def allow (fields : Fields tree) (allowed : List String) : Except Error Unit :=
  match fields.tags.find? fun tag => tag ∉ allowed with
  | some tag => .error (.malformed (.unexpectedField fields.construct tag))
  | none => .ok ()

end Fields

/-- The fields of a node, under the name of the node's own tag. -/
def Node.fields {tree : Tree} (node : Node tree) : Except Error (Fields tree) := do
  Fields.ofNodes node.tag (← node.children)

end Lowering
