import Mathlib.Data.List.Induction
import Lowering.Proofs.ExprReaders

/-! Whatever is read as an expression is one by the grammar. -/

namespace Lowering
namespace Expr

variable {tree : Tree}

/-- Nodes that continue a chain, to the expression that it ends as. -/
def Continues (first : Expr) (done : List (BinaryOp × Expr)) (entries : List (String × Tree)) (expr : Expr) : Prop :=
  ∃ rest, Rest entries rest ∧ joined first (done ++ rest) = expr

/-- The nodes that may follow where reading has got to, with the expression that they complete. -/
def Partial.Closes : Partial → List (String × Tree) → Expr → Prop
  | awaiting before unaries, entries, expr => ∃ begun operand others first done, entries = begun ++ others ∧
      Derives .operand begun operand ∧ supply before unaries operand = ended first done ∧ Continues first done others expr
  | ended first done, entries, expr => Continues first done entries expr

/-- Whatever is read from a content is what the rules make of it. -/
structure Sound (tree : Tree) : Prop where
  expression : ∀ {expr}, ofTree tree = .ok expr → Reads .expression tree expr
  term : ∀ {expr}, ofTerm tree = .ok expr → Reads .term tree expr
  base : ∀ {expr}, ofBase tree = .ok expr → Reads .base tree expr
  arguments : ∀ {arguments}, argumentsOfTree tree = .ok arguments → Arguments (some tree) arguments

section Soundness

variable {node : Node tree} {nodes : List (Node tree)} {expr : Expr}

theorem Partial.take_closes {reached next : Partial} {entries : List (String × Tree)} (sound : Sound node.content)
    (taken : reached.take node = .ok next) (closes : next.Closes entries expr) :
    reached.Closes (node.entry :: entries) expr := by
  obtain ⟨tag, content, smaller⟩ := node
  unfold take at taken
  split at taken
  next before unaries found =>
    cases found
    obtain ⟨token, spelled, taken⟩ := except_bind_ok.mp taken
    obtain ⟨operator, known, made⟩ := except_bind_ok.mp taken
    cases made
    obtain ⟨begun, operand, others, first, done, rfl, derives, supplied, continues⟩ := closes
    have token := UnaryOp.token_of_ofToken? (require_ok.mp known) ▸ Node.text_ok.mp spelled
    exact ⟨_, _, others, first, done, rfl, .unary token derives, supplied, continues⟩
  next before unaries found =>
    cases found
    obtain ⟨term, read, made⟩ := except_bind_ok.mp taken
    cases made
    obtain ⟨inside, listed, derives⟩ := sound.term read
    cases before with
    | none => exact ⟨_, term, entries, _, _, rfl, .ofTerm listed derives, rfl, closes⟩
    | some before => exact ⟨_, term, entries, _, _, rfl, .ofTerm listed derives, rfl, closes⟩
  next first done found =>
    cases found
    obtain ⟨token, spelled, taken⟩ := except_bind_ok.mp taken
    obtain ⟨operator, known, made⟩ := except_bind_ok.mp taken
    cases made
    obtain ⟨begun, operand, others, _, _, rfl, derives, supplied, rest, continues, same⟩ := closes
    cases supplied
    have token := BinaryOp.token_of_ofToken? (require_ok.mp known) ▸ Node.text_ok.mp spelled
    refine ⟨_, .next token derives continues, ?_⟩
    rw [← same, List.append_assoc]
    rfl
  next =>
    split at taken <;> cases taken

theorem Partial.foldlM_closes {reached last : Partial} (sound : ∀ node : Node tree, Sound node.content)
    (taken : nodes.foldlM take reached = .ok last) (finished : last.finish = .ok expr) :
    reached.Closes (nodes.map Node.entry) expr := by
  induction nodes generalizing reached with
  | nil =>
    cases taken
    match last, finished with
    | ended first [], rfl => exact ⟨[], .done, rfl⟩
    | ended first (next :: done), rfl => exact ⟨[], .done, congrArg (joined first) (List.append_nil _)⟩
  | cons node nodes ih =>
    rw [List.foldlM_cons] at taken
    obtain ⟨next, first, rest⟩ := except_bind_ok.mp taken
    exact take_closes (sound node) first (ih rest)

theorem derives_ofNodes (sound : ∀ node : Node tree, Sound node.content) (read : ofNodes nodes = .ok expr) :
    Derives .expression (nodes.map Node.entry) expr := by
  obtain ⟨last, taken, finished⟩ := except_bind_ok.mp read
  obtain ⟨begun, operand, others, first, done, same, derives, supplied, rest, continues, rfl⟩ :=
    Partial.foldlM_closes sound taken finished
  cases supplied
  rw [same]
  exact .chain derives continues

theorem Sound.of_parameters {fields : Fields tree} {tag : String} {next : List (Accessor × Expr) → Except Error α}
    {value : α} (sound : ∀ node : Node tree, Sound node.content)
    (read : (match fields.get? tag with
      | some list => argumentsOfTree list.content >>= next
      | none => pure [] >>= next) = .ok value) :
    ∃ arguments, Arguments (fields.look tag) arguments ∧ next arguments = .ok value := by
  unfold Fields.look
  split at read
  next list found =>
    obtain ⟨arguments, read, rest⟩ := except_bind_ok.mp read
    exact ⟨arguments, found ▸ (sound list).arguments read, rest⟩
  next missing => exact ⟨[], missing ▸ .absent, read⟩

theorem derives_apply {base : Expr} {entries : List (String × Tree)} (sound : ∀ node : Node tree, Sound node.content)
    (target : Derives .term entries base) (applied : apply base node = .ok expr) :
    Derives .term (entries ++ [node.entry]) expr := by
  unfold apply at applied
  split at applied
  next found =>
    obtain ⟨fields, listed, applied⟩ := except_bind_ok.mp applied
    obtain ⟨_, allowed, applied⟩ := except_bind_ok.mp applied
    obtain ⟨name, spelled, made⟩ := except_bind_ok.mp applied
    cases made
    obtain ⟨content, present, spelled⟩ := Fields.leaf_ok.mp spelled
    have held := Fields.holds_among (by decide) listed allowed
    rw [Fields.among_cons, present] at held
    rw [Node.entry_eq found]
    exact .field target held spelled
  next found =>
    obtain ⟨fields, listed, applied⟩ := except_bind_ok.mp applied
    obtain ⟨_, allowed, applied⟩ := except_bind_ok.mp applied
    obtain ⟨name, spelled, applied⟩ := except_bind_ok.mp applied
    obtain ⟨called, named, applied⟩ := except_bind_ok.mp applied
    obtain ⟨arguments, each, applied⟩ := Sound.of_parameters sound applied
    obtain ⟨values, plain, made⟩ := except_bind_ok.mp applied
    cases made
    cases Method.plainArguments_ok.mp plain
    cases Method.name_of_ofName? (require_ok.mp named)
    obtain ⟨content, present, spelled⟩ := Fields.leaf_ok.mp spelled
    have held := Fields.holds_among (by decide) listed allowed
    rw [Fields.among_cons, present, Fields.among_cons, Fields.among_cons, Fields.among_nil, List.append_nil] at held
    rw [Node.entry_eq found, Fields.contains_eq]
    exact .method target held spelled each
  next found =>
    obtain ⟨fields, listed, applied⟩ := except_bind_ok.mp applied
    obtain ⟨_, allowed, applied⟩ := except_bind_ok.mp applied
    obtain ⟨position, present, applied⟩ := except_bind_ok.mp applied
    obtain ⟨value, read, made⟩ := except_bind_ok.mp applied
    cases made
    have held := Fields.holds_among (by decide) listed allowed
    rw [Fields.among_cons, Fields.look_of_part present] at held
    obtain ⟨inside, listed, derives⟩ := (sound position).expression read
    rw [Node.entry_eq found]
    exact .index target held listed derives
  next => cases applied

theorem derives_termOfNodes (sound : ∀ node : Node tree, Sound node.content) (read : termOfNodes nodes = .ok expr) :
    Derives .term (nodes.map Node.entry) expr := by
  induction nodes using List.reverseRecOn generalizing expr with
  | nil => cases read
  | append_singleton nodes node ih =>
    by_cases first : nodes = []
    · subst first
      obtain ⟨_, tagged, read⟩ := except_bind_ok.mp read
      obtain ⟨base, read, made⟩ := except_bind_ok.mp read
      cases made
      obtain ⟨entries, listed, derives⟩ := (sound node).base read
      rw [List.nil_append, List.map_singleton, Node.entry_eq (Node.checkTag_ok.mp tagged)]
      exact .ofBase listed derives
    · obtain ⟨base, begun, applied⟩ := (termOfNodes_snoc first node).mp read
      rw [List.map_append]
      exact derives_apply sound (ih begun) applied

theorem items_of_nodes (sound : ∀ node : Node tree, Sound node.content) {items : List Expr}
    (read : nodes.mapM itemOfNode = .ok items) : Items (nodes.map Node.entry) items := by
  have each := mapM_ok.mp read
  clear read
  induction each with
  | nil => exact .noItem
  | @cons node item _ _ first _ ih =>
    obtain ⟨_, tagged, read⟩ := except_bind_ok.mp first
    obtain ⟨entries, listed, derives⟩ := (sound node).expression read
    rw [List.map_cons, Node.entry_eq (Node.checkTag_ok.mp tagged)]
    exact .item listed derives ih

theorem arguments_of_nodes (sound : ∀ node : Node tree, Sound node.content) {arguments : List (Accessor × Expr)}
    (read : nodes.mapM argumentOfNode = .ok arguments) : EachArgument (nodes.map Node.entry) arguments := by
  have each := mapM_ok.mp read
  clear read
  induction each with
  | nil => exact .noArgument
  | @cons node argument _ _ first _ ih =>
    obtain ⟨_, tagged, first⟩ := except_bind_ok.mp first
    obtain ⟨fields, listed, first⟩ := except_bind_ok.mp first
    obtain ⟨_, allowed, first⟩ := except_bind_ok.mp first
    obtain ⟨token, given, first⟩ := except_bind_ok.mp first
    obtain ⟨accessor, resolved, first⟩ := except_bind_ok.mp first
    obtain ⟨position, present, first⟩ := except_bind_ok.mp first
    obtain ⟨value, read, made⟩ := except_bind_ok.mp first
    cases made
    have held := Fields.holds_among (by decide) listed allowed
    rw [Fields.among_cons, Fields.among_cons, Fields.look_of_part present, Fields.among_nil] at held
    have written := Accessor.ofField_ok.mp (except_bind_ok.mpr ⟨token, given, resolved⟩)
    obtain ⟨entries, listed, derives⟩ := (sound position).expression read
    rw [List.map_cons, Node.entry_eq (Node.checkTag_ok.mp tagged)]
    exact .argument held written listed derives ih

theorem derives_literalOfNode (sound : ∀ node : Node tree, Sound node.content) (read : literalOfNode node = .ok expr) :
    Derives .base [("literal", node.content)] expr := by
  have verbatim (read : (do return Expr.literal (← Literal.ofTree node.content)) = Except.ok expr) :
      Derives .base [("literal", node.content)] expr := by
    obtain ⟨value, written, made⟩ := except_bind_ok.mp read
    cases made
    exact .literal (Literal.ofTree_ok.mp written)
  unfold literalOfNode at read
  split at read
  next inner child =>
    split at read
    next collection =>
      obtain ⟨nodes, listed, read⟩ := except_bind_ok.mp read
      obtain ⟨items, each, made⟩ := except_bind_ok.mp read
      cases made
      have alone := Node.child_ok.mp child
      rw [Node.entry_eq collection] at alone
      exact .collection alone (Node.children_ok.mp listed) (items_of_nodes sound each)
    next => exact verbatim read
  next => exact verbatim read

theorem derives_baseOfNode (sound : ∀ node : Node tree, Sound node.content) (read : baseOfNode node = .ok expr) :
    Derives .base [node.entry] expr := by
  unfold baseOfNode at read
  split at read
  next tagged =>
    rw [Node.entry_eq tagged]
    exact derives_literalOfNode sound read
  next tagged =>
    rw [Node.entry_eq tagged]
    obtain ⟨name, spelled, made⟩ := except_bind_ok.mp read
    cases made
    exact .identifier (Node.text_ok.mp spelled)
  next tagged =>
    rw [Node.entry_eq tagged]
    obtain ⟨fields, listed, read⟩ := except_bind_ok.mp read
    obtain ⟨_, allowed, read⟩ := except_bind_ok.mp read
    obtain ⟨arguments, each, read⟩ := Sound.of_parameters sound read
    obtain ⟨name, spelled, made⟩ := except_bind_ok.mp read
    cases made
    obtain ⟨content, present, spelled⟩ := Fields.leaf_ok.mp spelled
    have held := Fields.holds_among (by decide) listed allowed
    rw [Fields.among_cons, present, Fields.among_cons, Fields.among_nil, List.append_nil] at held
    exact .call held spelled each
  next tagged =>
    rw [Node.entry_eq tagged]
    obtain ⟨inner, enclosed, made⟩ := except_bind_ok.mp read
    cases made
    obtain ⟨entries, listed, derives⟩ := (sound node).expression enclosed
    exact .paren listed derives
  next => cases read

private theorem sound_of_smaller (size : Nat) : ∀ tree : Tree, sizeOf tree < size → Sound tree := by
  induction size with
  | zero => exact fun _ small => absurd small (Nat.not_lt_zero _)
  | succ size ih =>
    intro tree small
    have sound (node : Node tree) : Sound node.content := ih node.content (by have := node.smaller; omega)
    constructor
    · intro expr read
      obtain ⟨nodes, listed, _, read⟩ := ofTree_ok.mp read
      exact ⟨_, Tree.nodes_ok.mp listed, derives_ofNodes sound read⟩
    · intro expr read
      obtain ⟨nodes, listed, read⟩ := ofTerm_ok.mp read
      exact ⟨_, Tree.nodes_ok.mp listed, derives_termOfNodes sound read⟩
    · intro expr read
      obtain ⟨node, alone, read⟩ := ofBase_ok.mp read
      exact ⟨_, Tree.single_ok.mp alone, derives_baseOfNode sound read⟩
    · intro arguments read
      obtain ⟨nodes, listed, read⟩ := argumentsOfTree_ok.mp read
      exact .listed (Tree.nodes_ok.mp listed) (arguments_of_nodes sound read)

theorem sound (tree : Tree) : Sound tree :=
  sound_of_smaller _ tree (Nat.lt_succ_self _)

end Soundness

end Expr
end Lowering
