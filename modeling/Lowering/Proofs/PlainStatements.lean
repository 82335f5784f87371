import Lowering.Proofs.Reports
import Lowering.Proofs.StatementNodes

/-! Reading the statements that hold no bodies. -/

namespace Lowering

open Lowering.Tree (ifGiven Spells EntriesSpell)

namespace Expr

variable {tree : Tree} {expr : Expr}

theorem ofTree_spells : ofTree tree = .ok expr ↔ expr.WellFormed .expression ∧ Spells "expression" expr.tree tree :=
  ofTree_iff.trans reads_iff

theorem ofTerm_spells : ofTerm tree = .ok expr ↔ expr.WellFormed .term ∧ Spells "term" (.ofEntries (expr.nodes .term)) tree :=
  ofTerm_iff.trans reads_iff

theorem itemOfNode_ok {node : Node tree} : itemOfNode node = .ok expr ↔
    node.tag = "expression" ∧ expr.WellFormed .expression ∧ Spells "expression" expr.tree node.content := by
  unfold itemOfNode
  simp only [except_bind_ok, Node.checkTag_ok, ofTree_spells]
  constructor
  · rintro ⟨_, tagged, read⟩
    exact ⟨tagged, read⟩
  · intro ⟨tagged, read⟩
    exact ⟨(), tagged, read⟩

theorem items_ok {nodes : List (Node tree)} {items : List Expr} (parent : String) : nodes.mapM itemOfNode = .ok items ↔
    allWellFormed items ∧ EntriesSpell parent (itemNodes items) (nodes.map Node.entry) := by
  have one (node : Node tree) (item : Expr) : itemOfNode node = .ok item ↔
      node.tag = "expression" ∧ item.WellFormed .expression ∧ Spells "expression" item.tree node.content := itemOfNode_ok
  rw [mapM_ok, allWellFormed_iff, itemNodes_eq_map]
  exact Tree.entriesSpell_each (by decide) (.inr (by decide)) one

end Expr

namespace Statement

variable {tree : Tree} {node : Node tree} {statement : Statement}

theorem printOfNode_ok : printOfNode node = .ok statement ↔
    ∃ values, statement = .print values ∧ Expr.allWellFormed values ∧
      Spells "print_statement" (.ofEntries (Expr.itemNodes values)) node.content := by
  have unfolded : printOfNode node = do return .print (← (← node.children).mapM Expr.itemOfNode) := rfl
  have ordered : Content.under "print_statement" = .ordered := rfl
  simp only [unfolded, except_bind_ok, Tree.spells_sequence ordered]
  constructor
  · rintro ⟨nodes, children, values, read, made⟩
    cases made
    obtain ⟨formed, spells⟩ := (Expr.items_ok _).mp read
    exact ⟨values, rfl, formed, _, Node.children_ok.mp children, spells⟩
  · rintro ⟨values, rfl, formed, entries, listed, spells⟩
    obtain ⟨nodes, children, rfl⟩ := Node.exists_children listed
    exact ⟨nodes, children, values, (Expr.items_ok _).mpr ⟨formed, spells⟩, rfl⟩

theorem type_spells {parent : String} {type : Option Tree} {entries : List (String × Tree)} :
    EntriesSpell parent (ifGiven "type" type) entries ↔ entries = ifGiven "type" type := by
  cases type with
  | none => exact Tree.entriesSpell_nil
  | some type =>
    constructor
    · intro spells
      obtain ⟨content, rest, rfl, first, last⟩ := (Tree.entriesSpell_cons (by decide) (.inr (by decide))).mp spells
      cases Tree.entriesSpell_nil.mp last
      cases (Tree.spells_kept rfl).mp first
      rfl
    · rintro rfl
      exact .cons (.kept rfl) .nil

theorem bindingOfNode_ok {mutable : Bool} (tag : String) (set : Content.under tag = .fields) (ordinary : tag ≠ "set_statement") :
    bindingOfNode mutable node = .ok statement ↔
      ∃ name type value, statement = .binding mutable name type value ∧ value.WellFormed .expression ∧
        Spells tag (.ofEntries (("identifier", .text name) :: ifGiven "type" type ++ [("expression", value.tree)])) node.content := by
  constructor
  · intro read
    obtain ⟨fields, listed, read⟩ := except_bind_ok.mp read
    obtain ⟨_, allowed, read⟩ := except_bind_ok.mp read
    obtain ⟨name, named, read⟩ := except_bind_ok.mp read
    obtain ⟨part, present, read⟩ := except_bind_ok.mp read
    obtain ⟨value, valued, made⟩ := except_bind_ok.mp read
    cases made
    obtain ⟨content, given, spelled⟩ := Fields.leaf_ok.mp named
    obtain ⟨formed, spells⟩ := Expr.ofTree_spells.mp valued
    have held := Fields.holds_among (by decide) listed allowed
    rw [Fields.among_cons, given, Fields.among_cons, Fields.among_cons, Fields.look_of_part present, Fields.among_nil] at held
    have typed : EntriesSpell tag (ifGiven "type" (fields.look "type")) (ifGiven "type" (fields.look "type")) :=
      type_spells.mpr rfl
    refine ⟨name, fields.look "type", value, rfl, formed, .fields set held (.cons (.text rfl spelled) ?_)⟩
    exact typed.append (.cons spells .nil)
  · rintro ⟨name, type, value, rfl, formed, spells⟩
    obtain ⟨entries, held, each⟩ := (Tree.spells_fields set).mp spells
    obtain ⟨content, _, rfl, spelled, each⟩ := each.of_text rfl (.inl ordinary)
    obtain ⟨_, _, rfl, typed, last⟩ := each.split
    cases type_spells.mp typed
    obtain ⟨part, _, rfl, spelt, done⟩ := (Tree.entriesSpell_cons (by decide) (.inr (by decide))).mp last
    cases Tree.entriesSpell_nil.mp done
    obtain ⟨fields, listed, look, allowed⟩ := held.read
    have known : fields.allow ["identifier", "type", "expression"] = .ok () := allowed _ (by simp +contextual [or_imp])
    have kept : fields.look "type" = type := by
      rw [look]
      cases type <;> rfl
    obtain ⟨value_part, present, rfl⟩ : ∃ node, fields.part "expression" = .ok node ∧ node.content = part := by
      apply Fields.part_of_look
      rw [look]
      cases type <;> rfl
    refine except_bind_ok.mpr ⟨fields, listed, except_bind_ok.mpr ⟨(), known, except_bind_ok.mpr ⟨name, ?_, ?_⟩⟩⟩
    · exact Fields.leaf_ok.mpr ⟨content, look _, spelled⟩
    · refine except_bind_ok.mpr ⟨_, present, except_bind_ok.mpr ⟨value, Expr.ofTree_spells.mpr ⟨formed, spelt⟩, ?_⟩⟩
      rw [← kept]
      rfl

/-- The node may stand for the target of an assignment. -/
def Target (entry : String × Tree) (target : Expr) : Prop :=
  (entry.1 = "identifier" ∧ ∃ name, target = .identifier name ∧ entry.2.leaf? = some name) ∨
    (entry.1 = "place_term" ∧ target.isPath = true ∧ Expr.ofTerm entry.2 = .ok target)

theorem targetOfFields_ok {fields : Fields tree} {target : Expr} : targetOfFields fields = .ok target ↔
    ∃ entry, ifGiven "identifier" (fields.look "identifier") ++ ifGiven "place_term" (fields.look "place_term") = [entry] ∧
      Target entry target := by
  have leaf {text} : fields.leaf "identifier" = .ok text ↔ _ := Fields.leaf_ok
  unfold targetOfFields
  unfold Fields.look at leaf ⊢
  cases plain : fields.get? "identifier" with
  | none =>
    cases place : fields.get? "place_term" with
    | none => simp [ifGiven]
    | some part =>
      simp only [except_bind_ok]
      constructor
      · rintro ⟨target, read, made⟩
        split at made
        next path =>
          cases made
          exact ⟨_, rfl, .inr ⟨rfl, path, read⟩⟩
        next => cases made
      · rintro ⟨entry, same, holds⟩
        cases same
        obtain ⟨odd, _⟩ | ⟨_, path, read⟩ := holds
        · simp at odd
        · exact ⟨target, read, if_pos path⟩
  | some part =>
    cases place : fields.get? "place_term" with
    | none =>
      simp only [except_bind_ok, leaf, plain, Option.map_some, Option.some.injEq]
      constructor
      · rintro ⟨name, ⟨_, rfl, spelled⟩, made⟩
        cases made
        exact ⟨_, rfl, .inl ⟨rfl, name, rfl, spelled⟩⟩
      · rintro ⟨entry, same, holds⟩
        cases same
        obtain ⟨_, name, rfl, spelled⟩ | ⟨odd, _⟩ := holds
        · exact ⟨name, ⟨_, rfl, spelled⟩, rfl⟩
        · simp at odd
    | some place => simp [ifGiven]

theorem targetNode_of_isPath {target : Expr} (path : target.isPath = true) :
    (∃ name, target = .identifier name) ∨ target.targetNode = ("place_term", .ofEntries (target.nodes .term)) := by
  cases target with
  | identifier name => exact .inl ⟨name, rfl⟩
  | field | index => exact .inr rfl
  | literal | call | method | unary | chain | paren | collection => cases path

theorem target_spells {target : Expr} {others entries : List (String × Tree)} :
    (target.isPath = true ∧ target.WellFormed .term) ∧ EntriesSpell "set_statement" (target.targetNode :: others) entries ↔
      ∃ entry rest, entries = entry :: rest ∧ Target entry target ∧ EntriesSpell "set_statement" others rest := by
  constructor
  · rintro ⟨⟨path, formed⟩, spells⟩
    obtain ⟨name, rfl⟩ | place := targetNode_of_isPath path
    · cases spells with
      | cons first rest => exact ⟨_, _, rfl, .inl ⟨rfl, name, rfl, (Tree.spells_text rfl).mp first⟩, rest⟩
      | @target _ content base identifier _ entries alone plain same rest =>
        refine ⟨_, _, rfl, .inr ⟨rfl, rfl, Expr.ofTerm_spells.mpr ⟨formed, ?_⟩⟩, rest⟩
        exact .sequence rfl alone (.cons (.sequence rfl plain (.cons (.text rfl same) .nil)) .nil)
    · rw [place] at spells
      obtain ⟨content, inner, rest, rfl, listed, each, last⟩ := spells.of_sequence (by decide) rfl
      refine ⟨_, rest, rfl, .inr ⟨rfl, path, Expr.ofTerm_spells.mpr ⟨formed, ?_⟩⟩, last⟩
      exact .sequence rfl listed (each.elsewhere (by decide) "term")
  · rintro ⟨⟨tag, content⟩, rest, rfl, ⟨rfl, name, rfl, spelled⟩ | ⟨rfl, path, read⟩, spells⟩
    · exact ⟨⟨rfl, trivial⟩, .cons (.text rfl spelled) spells⟩
    · obtain ⟨formed, spelled⟩ := Expr.ofTerm_spells.mp read
      refine ⟨⟨path, formed⟩, ?_⟩
      obtain ⟨inner, listed, each⟩ := (Tree.spells_sequence rfl).mp spelled
      obtain ⟨name, rfl⟩ | place := targetNode_of_isPath path
      · obtain ⟨base, inside, _, rfl, plain, within, last⟩ := each.of_sequence (by decide) rfl
        cases Tree.entriesSpell_nil.mp last
        obtain ⟨identifier, _, rfl, same, last⟩ := within.of_text rfl (by decide)
        cases Tree.entriesSpell_nil.mp last
        exact .target listed plain same spells
      · rw [place]
        exact .cons (.sequence rfl listed (each.elsewhere (by decide) "place_term")) spells

theorem setOfNode_ok : setOfNode node = .ok statement ↔
    ∃ target operator value, statement = .set target operator value ∧
      ((target.isPath = true ∧ target.WellFormed .term) ∧ value.WellFormed .expression) ∧
      Spells "set_statement" (.ofEntries [target.targetNode, ("assignment_op", .text operator.symbol), ("expression", value.tree)])
        node.content := by
  constructor
  · intro read
    obtain ⟨fields, listed, read⟩ := except_bind_ok.mp read
    obtain ⟨_, allowed, read⟩ := except_bind_ok.mp read
    obtain ⟨target, aimed, read⟩ := except_bind_ok.mp read
    obtain ⟨token, spelled, read⟩ := except_bind_ok.mp read
    obtain ⟨operator, known, read⟩ := except_bind_ok.mp read
    obtain ⟨part, present, read⟩ := except_bind_ok.mp read
    obtain ⟨value, valued, made⟩ := except_bind_ok.mp read
    cases made
    cases AssignOp.ofToken?_eq_some.mp (require_ok.mp known)
    obtain ⟨content, given, spelled⟩ := Fields.leaf_ok.mp spelled
    obtain ⟨formed, spells⟩ := Expr.ofTree_spells.mp valued
    obtain ⟨entry, single, holds⟩ := targetOfFields_ok.mp aimed
    have held := Fields.holds_among (by decide) listed allowed
    rw [Fields.among_cons, Fields.among_cons, Fields.among_cons, given, Fields.among_cons, Fields.look_of_part present,
      Fields.among_nil, ← List.append_assoc, single] at held
    have others : EntriesSpell "set_statement" [("assignment_op", .text operator.symbol), ("expression", value.tree)] _ :=
      .cons (.text rfl spelled) (.cons spells .nil)
    obtain ⟨place, all⟩ := target_spells.mpr ⟨entry, _, rfl, holds, others⟩
    exact ⟨target, operator, value, rfl, ⟨place, formed⟩, .fields rfl held all⟩
  · rintro ⟨target, operator, value, rfl, ⟨place, formed⟩, spells⟩
    obtain ⟨entries, held, each⟩ := (Tree.spells_fields rfl).mp spells
    obtain ⟨⟨tag, content⟩, _, rfl, holds, each⟩ := target_spells.mp ⟨place, each⟩
    obtain ⟨token, _, rfl, spelled, each⟩ := each.of_text rfl (.inr (by decide))
    obtain ⟨part, _, rfl, spelt, done⟩ := (Tree.entriesSpell_cons (by decide) (.inr (by decide))).mp each
    cases Tree.entriesSpell_nil.mp done
    obtain ⟨fields, listed, look, allowed⟩ := held.read
    have named : tag = "identifier" ∨ tag = "place_term" := by
      obtain ⟨same, _⟩ | ⟨same, _⟩ := holds
      · exact .inl same
      · exact .inr same
    have known : fields.allow ["identifier", "place_term", "assignment_op", "expression"] = .ok () := by
      apply allowed
      obtain rfl | rfl := named <;> simp
    have single : ifGiven "identifier" (fields.look "identifier") ++ ifGiven "place_term" (fields.look "place_term") =
        [(tag, content)] := by
      rw [look, look]
      obtain rfl | rfl := named <;> rfl
    have op : fields.look "assignment_op" = some token := by
      rw [look]
      obtain rfl | rfl := named <;> rfl
    obtain ⟨value_part, present, rfl⟩ : ∃ node, fields.part "expression" = .ok node ∧ node.content = part := by
      apply Fields.part_of_look
      rw [look]
      obtain rfl | rfl := named <;> rfl
    refine except_bind_ok.mpr ⟨fields, listed, except_bind_ok.mpr ⟨(), known, except_bind_ok.mpr ⟨target, ?_, ?_⟩⟩⟩
    · exact targetOfFields_ok.mpr ⟨_, single, holds⟩
    refine except_bind_ok.mpr ⟨_, Fields.leaf_ok.mpr ⟨token, op, spelled⟩, except_bind_ok.mpr ⟨operator, ?_, ?_⟩⟩
    · exact require_ok.mpr (AssignOp.ofToken?_eq_some.mpr rfl)
    · exact except_bind_ok.mpr ⟨_, present, except_bind_ok.mpr ⟨value, Expr.ofTree_spells.mpr ⟨formed, spelt⟩, rfl⟩⟩

theorem runOfNode_ok : runOfNode node = .ok statement ↔ ∃ term, statement = .run term ∧ term.WellFormed .term ∧
    Spells "run_statement" (.ofEntries [("term", .ofEntries (term.nodes .term))]) node.content := by
  constructor
  · intro read
    obtain ⟨fields, listed, read⟩ := except_bind_ok.mp read
    obtain ⟨_, allowed, read⟩ := except_bind_ok.mp read
    obtain ⟨part, present, read⟩ := except_bind_ok.mp read
    obtain ⟨term, inside, made⟩ := except_bind_ok.mp read
    cases made
    obtain ⟨formed, spells⟩ := Expr.ofTerm_spells.mp inside
    have held := Fields.holds_among (by decide) listed allowed
    rw [Fields.among_cons, Fields.look_of_part present, Fields.among_nil] at held
    exact ⟨term, rfl, formed, .fields rfl held (.cons spells .nil)⟩
  · rintro ⟨term, rfl, formed, spells⟩
    obtain ⟨entries, held, each⟩ := (Tree.spells_fields rfl).mp spells
    obtain ⟨content, _, rfl, spelt, done⟩ := (Tree.entriesSpell_cons (by decide) (.inr (by decide))).mp each
    cases Tree.entriesSpell_nil.mp done
    obtain ⟨fields, listed, look, allowed⟩ := held.read
    obtain ⟨part, present, rfl⟩ := Fields.part_of_look (look "term")
    refine except_bind_ok.mpr ⟨fields, listed, except_bind_ok.mpr ⟨(), allowed _ (by simp), ?_⟩⟩
    exact except_bind_ok.mpr ⟨part, present, except_bind_ok.mpr ⟨term, Expr.ofTerm_spells.mpr ⟨formed, spelt⟩, rfl⟩⟩

theorem returningOfNode_ok : returningOfNode node = .ok statement ↔
    ∃ value : Option Expr, statement = .returning value ∧ (∀ given ∈ value, given.WellFormed .expression) ∧
      Spells "return_statement" (.ofEntries (ifGiven "expression" (value.map Expr.tree))) node.content := by
  constructor
  · intro read
    obtain ⟨fields, listed, read⟩ := except_bind_ok.mp read
    obtain ⟨_, allowed, read⟩ := except_bind_ok.mp read
    have held := Fields.holds_among (by decide) listed allowed
    rw [Fields.among_cons, Fields.among_nil, List.append_nil, Fields.look] at held
    split at read
    next part present =>
      obtain ⟨value, valued, made⟩ := except_bind_ok.mp read
      cases made
      obtain ⟨formed, spells⟩ := Expr.ofTree_spells.mp valued
      rw [present] at held
      exact ⟨some value, rfl, by simpa using formed, .fields rfl held (.cons spells .nil)⟩
    next absent =>
      cases read
      rw [absent] at held
      exact ⟨none, rfl, nofun, .fields rfl held .nil⟩
  · rintro ⟨value, rfl, formed, spells⟩
    obtain ⟨entries, held, each⟩ := (Tree.spells_fields rfl).mp spells
    cases value with
    | none =>
      cases Tree.entriesSpell_nil.mp each
      obtain ⟨fields, listed, look, allowed⟩ := held.read
      have absent : fields.get? "expression" = none := Option.map_eq_none_iff.mp (look "expression")
      refine except_bind_ok.mpr ⟨fields, listed, except_bind_ok.mpr ⟨(), allowed _ (by simp), ?_⟩⟩
      rw [absent]
      rfl
    | some value =>
      obtain ⟨content, _, rfl, spelt, done⟩ := (Tree.entriesSpell_cons (by decide) (.inr (by decide))).mp each
      cases Tree.entriesSpell_nil.mp done
      obtain ⟨fields, listed, look, allowed⟩ := held.read
      obtain ⟨part, present, rfl⟩ := Option.map_eq_some_iff.mp (look "expression")
      refine except_bind_ok.mpr ⟨fields, listed, except_bind_ok.mpr ⟨(), allowed _ (by simp), ?_⟩⟩
      rw [present]
      exact except_bind_ok.mpr ⟨value, Expr.ofTree_spells.mpr ⟨formed value rfl, spelt⟩, rfl⟩

theorem keywordOfNode_ok {keyword : Statement} (tag : String) (bare : Content.under tag = .keyword) :
    keywordOfNode keyword node = .ok statement ↔ statement = keyword ∧ Spells tag (.text "") node.content := by
  rw [Tree.spells_keyword bare]
  unfold keywordOfNode
  by_cases leaf : node.content.leaf?.isSome = true
  · rw [if_pos leaf]
    simp [leaf, eq_comm]
  · rw [if_neg leaf]
    simp only [leaf, Bool.false_eq_true, false_or, except_bind_ok]
    constructor
    · rintro ⟨nodes, children, made⟩
      cases nodes with
      | nil =>
        cases made
        exact ⟨rfl, Node.children_ok.mp children⟩
      | cons => cases made
    · rintro ⟨rfl, listed⟩
      exact ⟨[], Node.children_ok.mpr listed, rfl⟩

end Statement
end Lowering
