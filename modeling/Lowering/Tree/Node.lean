import Lowering.Error

/-! Tagged nodes: mappings with one key. A node remembers that its content is smaller than the
tree in which it was found, however deep, so that a reader which descends from node to node
ends. -/

namespace Lowering

/-- A tagged node found somewhere within a tree. -/
structure Node (tree : Tree) where
  tag : String
  content : Tree
  smaller : sizeOf content < sizeOf tree

namespace Node

variable {tree : Tree}

/-- Reads a part of the tree as a node. -/
def ofPart (part : Tree) (held : sizeOf part ≤ sizeOf tree) : Except Error (Node tree) :=
  match part with
  | .mapping [(tag, content)] => .ok ⟨tag, content, by simp at held; omega⟩
  | .mapping entries => .error (.malformed (.keyCount entries.length))
  | other => .error (.malformed (.notNode other.shape))

/-- Reads each of several parts as a node, in order. -/
def ofParts : (parts : List Tree) → (∀ part ∈ parts, sizeOf part ≤ sizeOf tree) →
    Except Error (List (Node tree))
  | [], _ => .ok []
  | part :: parts, held => do
    let node ← ofPart part (held part List.mem_cons_self)
    let nodes ← ofParts parts fun other member => held other (List.mem_cons_of_mem part member)
    return node :: nodes

/-- Reads a part as a sequence of nodes. Null and empty text stand for the empty sequence. -/
def sequenceOf (part : Tree) (held : sizeOf part ≤ sizeOf tree) : Except Error (List (Node tree)) :=
  match part with
  | .sequence items => ofParts items fun item member => by
      have := List.sizeOf_lt_of_mem member
      simp at held
      omega
  | .null => .ok []
  | .text "" => .ok []
  | other => .error (.malformed (.notSequence other.shape))

/-- The node of a sequence that must hold exactly one. -/
def alone : List (Node tree) → Except Error (Node tree)
  | [node] => .ok node
  | nodes => .error (.malformed (.alternatives nodes.length))

/-- The content as a sequence of nodes. -/
def children (node : Node tree) : Except Error (List (Node tree)) :=
  sequenceOf node.content (Nat.le_of_lt node.smaller)

/-- The content as a sequence of exactly one node. -/
def child (node : Node tree) : Except Error (Node tree) := do
  alone (← node.children)

/-- The content as leaf text. -/
def text (node : Node tree) : Except Error String :=
  match node.content.leaf? with
  | some text => .ok text
  | none => .error (.malformed (.notText node.tag node.content.shape))

def checkTag (node : Node tree) (tag : String) : Except Error Unit :=
  if node.tag = tag then .ok () else .error (.malformed (.wrongTag tag node.tag))

end Node

namespace Tree

/-- The tree itself as a node. -/
def node (tree : Tree) : Except Error (Node tree) :=
  Node.ofPart tree (Nat.le_refl _)

/-- The tree itself as a sequence of nodes. -/
def nodes (tree : Tree) : Except Error (List (Node tree)) :=
  Node.sequenceOf tree (Nat.le_refl _)

/-- The tree itself as a sequence of exactly one node. -/
def single (tree : Tree) : Except Error (Node tree) := do
  Node.alone (← tree.nodes)

end Tree
end Lowering
