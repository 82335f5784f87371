import Lowering.Proofs.Alternatives

/-! Statements are read by their nodes. What is read as a statement is a spelling of its standard tree,
and every spelling of it is read as the statement. -/

namespace Lowering

open Lowering.Tree (ifGiven Spells EntriesSpell)
open Traced (Steady)

namespace Statement

variable {tree : Tree} {node : Node tree} {statement : Statement}

section Bodies

variable {readBody : Node tree → Traced (List Statement)} (reader : BodyReader readBody)
include reader

omit reader in
/-- How the node of a statement is read once its kind is known. -/
def ofKind (readBody : Node tree → Traced (List Statement)) (node : Node tree) : StatementKind → Traced Statement
  | .print => printOfNode node
  | .var => bindingOfNode true node
  | .const => bindingOfNode false node
  | .set => setOfNode node
  | .run => runOfNode node
  | .returning => returningOfNode node
  | .breaking => keywordOfNode .breaking node
  | .continuing => keywordOfNode .continuing node
  | .whileLoop => whileLoopOfNode readBody node
  | .forLoop => forLoopOfNode readBody node
  | .ifBlock => ifBlockOfNode readBody node
  | .matchBlock => matchBlockOfNode readBody node

theorem ofKind_steady (kind : StatementKind) : Steady (ofKind readBody node kind) := by
  cases kind with
  | whileLoop => exact whileLoopOfNode_steady reader.steady node
  | forLoop => exact forLoopOfNode_steady reader.steady node
  | ifBlock => exact ifBlockOfNode_steady reader.steady node
  | matchBlock => exact matchBlockOfNode_steady reader.steady node
  | _ => exact .lift _

theorem ofKind_ok {kind : StatementKind} : (ofKind readBody node kind).result = .ok statement ↔
    statement.kind = kind ∧ statement.WellFormed ∧ Spells kind.tag statement.content node.content := by
  constructor
  · intro read
    cases kind with
    | print =>
      obtain ⟨_, rfl, all⟩ := printOfNode_ok.mp read
      exact ⟨rfl, all⟩
    | var =>
      obtain ⟨_, _, _, rfl, all⟩ := (bindingOfNode_ok "var_statement" rfl (by decide)).mp read
      exact ⟨rfl, all⟩
    | const =>
      obtain ⟨_, _, _, rfl, all⟩ := (bindingOfNode_ok "const_statement" rfl (by decide)).mp read
      exact ⟨rfl, all⟩
    | set =>
      obtain ⟨_, _, _, rfl, all⟩ := setOfNode_ok.mp read
      exact ⟨rfl, all⟩
    | run =>
      obtain ⟨_, rfl, all⟩ := runOfNode_ok.mp read
      exact ⟨rfl, all⟩
    | returning =>
      obtain ⟨_, rfl, all⟩ := returningOfNode_ok.mp read
      exact ⟨rfl, all⟩
    | breaking =>
      obtain ⟨rfl, spells⟩ := (keywordOfNode_ok "break_statement" rfl).mp read
      exact ⟨rfl, trivial, spells⟩
    | continuing =>
      obtain ⟨rfl, spells⟩ := (keywordOfNode_ok "continue_statement" rfl).mp read
      exact ⟨rfl, trivial, spells⟩
    | whileLoop =>
      obtain ⟨_, _, rfl, all⟩ := (whileLoopOfNode_ok reader).mp read
      exact ⟨rfl, all⟩
    | forLoop =>
      obtain ⟨_, _, _, rfl, all⟩ := (forLoopOfNode_ok reader).mp read
      exact ⟨rfl, all⟩
    | ifBlock =>
      obtain ⟨_, _, rfl, all⟩ := (ifBlockOfNode_ok reader).mp read
      exact ⟨rfl, all⟩
    | matchBlock =>
      obtain ⟨_, _, _, rfl, all⟩ := (matchBlockOfNode_ok reader).mp read
      exact ⟨rfl, all⟩
  · rintro ⟨rfl, formed, spells⟩
    cases statement with
    | print => exact printOfNode_ok.mpr ⟨_, rfl, formed, spells⟩
    | binding mutable =>
      cases mutable with
      | true => exact (bindingOfNode_ok "var_statement" rfl (by decide)).mpr ⟨_, _, _, rfl, formed, spells⟩
      | false => exact (bindingOfNode_ok "const_statement" rfl (by decide)).mpr ⟨_, _, _, rfl, formed, spells⟩
    | set => exact setOfNode_ok.mpr ⟨_, _, _, rfl, formed, spells⟩
    | run => exact runOfNode_ok.mpr ⟨_, rfl, formed, spells⟩
    | returning => exact returningOfNode_ok.mpr ⟨_, rfl, formed, spells⟩
    | breaking => exact (keywordOfNode_ok "break_statement" rfl).mpr ⟨rfl, spells⟩
    | continuing => exact (keywordOfNode_ok "continue_statement" rfl).mpr ⟨rfl, spells⟩
    | whileLoop => exact (whileLoopOfNode_ok reader).mpr ⟨_, _, rfl, formed, spells⟩
    | forLoop => exact (forLoopOfNode_ok reader).mpr ⟨_, _, _, rfl, formed, spells⟩
    | ifBlock => exact (ifBlockOfNode_ok reader).mpr ⟨_, _, rfl, formed, spells⟩
    | matchBlock => exact (matchBlockOfNode_ok reader).mpr ⟨_, _, _, rfl, formed, spells⟩

end Bodies

theorem kind_present (kind : StatementKind) : kind.tag ∉ omittable := by
  cases kind <;> decide

theorem ofTree_ok (reader : BodyReader fun node : Node tree => listOfTree node.content) :
    (ofTree tree).result = .ok statement ↔ statement.WellFormed ∧ Spells "statement" statement.tree tree := by
  have ordered : Content.under "statement" = .ordered := rfl
  have unfolded : ofTree tree = (do
      let node ← liftM tree.single
      let kind ← liftM (Vocabulary.statementKind.require node.tag (StatementKind.ofTag? node.tag))
      Traced.note (.statement node.tag)
      ofKind (fun body => listOfTree body.content) node kind) := by
    rw [ofTree]
    rfl
  rw [unfolded]
  simp only [Traced.lift_bind_ok, Traced.bind_result_ok fun _ => ofKind_steady reader _, ofKind_ok reader, require_ok,
    StatementKind.ofTag?_eq_some]
  constructor
  · rintro ⟨node, alone, kind, tagged, _, _, rfl, formed, spells⟩
    refine ⟨formed, .sequence rfl (Tree.single_ok.mp alone) ?_⟩
    rw [Node.entry_eq tagged.symm]
    exact .cons spells .nil
  · rintro ⟨formed, spells⟩
    obtain ⟨entries, listed, each⟩ := (Tree.spells_sequence ordered).mp spells
    obtain ⟨content, _, rfl, spelt, last⟩ := (Tree.entriesSpell_cons (kind_present _) (.inl (by decide))).mp each
    cases Tree.entriesSpell_nil.mp last
    obtain ⟨smaller, alone⟩ := Tree.exists_single listed
    exact ⟨_, alone, statement.kind, rfl, (), rfl, rfl, formed, spelt⟩

theorem listOfTree_ok {body : List Statement}
    (contents : ∀ node : Node tree, ∀ statement, (ofTree node.content).result = .ok statement ↔
      statement.WellFormed ∧ Spells "statement" statement.tree node.content) :
    (listOfTree tree).result = .ok body ↔
      bodyWellFormed body ∧ Spells "statements" (.ofEntries (bodyNodes body)) tree := by
  have ordered : Content.under "statements" = .ordered := rfl
  have steady (node : Node tree) : Steady (do node.checkTag "statement"; ofTree node.content) :=
    .bind (.lift _) fun _ => ofTree_steady node.content
  have one (node : Node tree) statement : (do node.checkTag "statement"; ofTree node.content : Traced Statement).result =
      .ok statement ↔ node.tag = "statement" ∧ statement.WellFormed ∧ Spells "statement" statement.tree node.content := by
    simp only [Traced.lift_bind_ok, Node.checkTag_ok, contents]
    exact ⟨fun read => ⟨read.choose_spec.1, read.choose_spec.2⟩, fun read => ⟨(), read⟩⟩
  have each (nodes : List (Node tree)) : List.Forall₂ _ nodes body ↔ (∀ statement ∈ body, statement.WellFormed) ∧
      EntriesSpell "statements" (body.map fun statement => ("statement", statement.tree)) (nodes.map Node.entry) :=
    Tree.entriesSpell_each (by decide) (.inr (by decide)) one
  rw [listOfTree, Traced.lift_bind_ok, bodyWellFormed_iff, bodyNodes_eq_map, Tree.spells_sequence ordered]
  simp only [Traced.mapM_result_ok steady, each]
  constructor
  · rintro ⟨nodes, read, formed, spells⟩
    exact ⟨formed, _, Tree.nodes_ok.mp read, spells⟩
  · rintro ⟨formed, entries, listed, spells⟩
    obtain ⟨nodes, read, rfl⟩ := Tree.exists_nodes listed
    exact ⟨nodes, read, formed, spells⟩

private theorem readers_ok (size : Nat) : ∀ tree : Tree, sizeOf tree < size →
    (∀ statement, (ofTree tree).result = .ok statement ↔ statement.WellFormed ∧ Spells "statement" statement.tree tree) ∧
    ∀ body, (listOfTree tree).result = .ok body ↔
      bodyWellFormed body ∧ Spells "statements" (.ofEntries (bodyNodes body)) tree := by
  induction size with
  | zero => exact fun _ small => absurd small (Nat.not_lt_zero _)
  | succ size ih =>
    intro tree small
    have smaller (node : Node tree) : sizeOf node.content < size := by
      have := node.smaller
      omega
    have reader : BodyReader fun node : Node tree => listOfTree node.content :=
      ⟨fun node => listOfTree_steady node.content, fun node => (ih node.content (smaller node)).2⟩
    exact ⟨fun _ => ofTree_ok reader, fun _ => listOfTree_ok fun node => (ih node.content (smaller node)).1⟩

section Standard

open Lowering.Expr (nodes_spell itemNodes_spell fields_spell)

theorem tree_spells (expr : Expr) : Spells "expression" expr.tree expr.tree :=
  .sequence rfl (.entries _) (nodes_spell expr .expression _)

theorem targetNode_spell (target : Expr) (parent : String) : EntriesSpell parent [target.targetNode] [target.targetNode] := by
  have place : EntriesSpell parent [("place_term", .ofEntries (target.nodes .term))]
      [("place_term", .ofEntries (target.nodes .term))] := .cons (.sequence rfl (.entries _) (nodes_spell target .term _)) .nil
  cases target with
  | identifier => exact .cons (.text rfl rfl) .nil
  | literal | call | method | field | index | unary | chain | paren | collection => exact place

mutual

theorem content_spells : (statement : Statement) → Spells statement.kind.tag statement.content statement.content
  | print values => .sequence rfl (.entries _) (itemNodes_spell values _)
  | binding mutable name type value => by
    have set : Content.under (binding mutable name type value).kind.tag = .fields := by cases mutable <;> rfl
    refine .fields set (Tree.holds_ofEntries ?_) (.cons (.text rfl rfl) (.append (type_spells.mpr rfl) ?_))
    · cases type <;> simp [ifGiven]
    · exact .cons (tree_spells value) .nil
  | set target _ value => by
    refine .fields rfl (Tree.holds_ofEntries ?_) (.append (targetNode_spell target _) ?_)
    · cases target <;> simp [Expr.targetNode]
    · exact .cons (.text rfl rfl) (.cons (tree_spells value) .nil)
  | run term =>
    .fields rfl (Tree.holds_ofEntries (by simp)) (.cons (.sequence rfl (.entries _) (nodes_spell term .term _)) .nil)
  | returning value => by
    refine .fields rfl (Tree.holds_ofEntries ?_) ?_
    · cases value <;> simp [ifGiven]
    · cases value with
      | none => exact .nil
      | some value => exact .cons (tree_spells value) .nil
  | breaking => .keyword rfl (.inl rfl)
  | continuing => .keyword rfl (.inl rfl)
  | whileLoop condition body => by
    refine .fields rfl (Tree.holds_ofEntries (by simp)) (.cons (tree_spells condition) (.cons ?_ .nil))
    exact .sequence rfl (.entries _) (bodyNodes_spell body)
  | forLoop _ range body => by
    refine .sequence rfl (.entries _) (.cons (.text rfl rfl) (.append (itemNodes_spell range.expressions _) (.cons ?_ .nil)))
    exact .sequence rfl (.entries _) (bodyNodes_spell body)
  | ifBlock branches otherwise =>
    .sequence rfl (.entries _) (.append (branchNodes_spell "if_branch" rfl branches) (elseNodes_spell otherwise))
  | matchBlock subject arms otherwise =>
    .sequence rfl (.entries _) (.cons (tree_spells subject) (.append (armNodes_spell arms) (defaultNodes_spell otherwise)))

theorem bodyNodes_spell : (body : List Statement) → EntriesSpell "statements" (bodyNodes body) (bodyNodes body)
  | [] => .nil
  | statement :: rest =>
    .cons (.sequence rfl (.entries _) (.cons (content_spells statement) .nil)) (bodyNodes_spell rest)

theorem branchNodes_spell : (tag : String) → Content.under tag = .fields → (branches : List (Expr × List Statement)) →
    EntriesSpell "if_block" (branchNodes tag branches) (branchNodes tag branches)
  | _, _, [] => .nil
  | tag, fields, (condition, body) :: rest => by
    refine .append (fields_spell fields (by simp) (.cons (tree_spells condition) (.cons ?_ .nil))) (branchNodes_spell _ rfl rest)
    exact .sequence rfl (.entries _) (bodyNodes_spell body)

theorem elseNodes_spell : (otherwise : Option (List Statement)) →
    EntriesSpell "if_block" (elseNodes otherwise) (elseNodes otherwise)
  | none => .nil
  | some body => fields_spell rfl (by simp) (.cons (.sequence rfl (.entries _) (bodyNodes_spell body)) .nil)

theorem armNodes_spell : (arms : List (List Expr × List Statement)) →
    EntriesSpell "match_block" (armNodes arms) (armNodes arms)
  | [] => .nil
  | (values, body) :: rest => by
    refine .cons (.sequence rfl (.entries _) (.append (itemNodes_spell values _) (.cons ?_ .nil))) (armNodes_spell rest)
    exact .sequence rfl (.entries _) (bodyNodes_spell body)

theorem defaultNodes_spell : (otherwise : Option (List Statement)) →
    EntriesSpell "match_block" (defaultNodes otherwise) (defaultNodes otherwise)
  | none => .nil
  | some body =>
    .cons (.sequence rfl (.entries _) (.cons (.sequence rfl (.entries _) (bodyNodes_spell body)) .nil)) .nil

end

end Standard

theorem ofTree_iff : (ofTree tree).result = .ok statement ↔
    statement.WellFormed ∧ Spells "statement" statement.tree tree :=
  (readers_ok _ tree (Nat.lt_succ_self _)).1 statement

theorem listOfTree_wellFormed {body : List Statement} (read : (listOfTree tree).result = .ok body) : bodyWellFormed body :=
  (((readers_ok _ tree (Nat.lt_succ_self _)).2 body).mp read).1

/-- A body that can be read at all is read back from its standard tree. -/
theorem listOfTree_standard {body : List Statement} (formed : bodyWellFormed body) :
    (listOfTree (.ofEntries (bodyNodes body))).result = .ok body :=
  ((readers_ok _ _ (Nat.lt_succ_self _)).2 body).mpr ⟨formed, .sequence rfl (.entries _) (bodyNodes_spell body)⟩

/-- The standard tree of a statement is read as the statement whenever it can be read at all, and what
is read as the statement is exactly its standard tree in some spelling. -/
theorem reading_lossless (statement : Statement) :
    ((ofTree statement.tree).result = .ok statement ↔ statement.WellFormed) ∧
    ∀ tree, (ofTree tree).result = .ok statement ↔ statement.WellFormed ∧ Spells "statement" statement.tree tree := by
  have standard : Spells "statement" statement.tree statement.tree :=
    .sequence rfl (.entries _) (.cons (content_spells statement) .nil)
  refine ⟨ofTree_iff.trans ?_, fun tree => ofTree_iff⟩
  exact and_iff_left standard

end Statement
end Lowering
