import Lowering.Proofs.PlainStatements

/-! Reading loops, and the bodies that they share with other statements. -/

namespace Lowering

open Lowering.Tree (ifGiven Spells EntriesSpell)
open Traced (Steady)

namespace Statement

variable {tree : Tree} {node : Node tree} {statement : Statement}

theorem rangeOfExpressions_ok {values : List Expr} {range : Range} :
    rangeOfExpressions values = .ok range ↔ values = range.expressions := by
  constructor
  · intro read
    unfold rangeOfExpressions at read
    split at read <;> cases read <;> rfl
  · rintro rfl
    cases range <;> rfl

/-- A reader of bodies accepts the spellings of their nodes. -/
structure BodyReader (readBody : Node tree → Traced (List Statement)) : Prop where
  steady : ∀ node, Steady (readBody node)
  reads : ∀ node body, (readBody node).result = .ok body ↔
    bodyWellFormed body ∧ Spells "statements" (.ofEntries (bodyNodes body)) node.content

section Bodies

variable {readBody : Node tree → Traced (List Statement)} (reader : BodyReader readBody) {fields : Fields tree}
  {condition : Expr} {body : List Statement}

theorem bodyNodes_eq_nil : bodyNodes body = [] ↔ body = [] := by
  cases body <;> simp [bodyNodes]

/-- The field that holds a body may be left out where the body is empty. -/
theorem body_spells {parent : String} {given : Option Tree} :
    EntriesSpell parent [("statements", .ofEntries (bodyNodes body))] (ifGiven "statements" given) ↔
      match given with
      | none => body = []
      | some tree => Spells "statements" (.ofEntries (bodyNodes body)) tree := by
  rw [Tree.entriesSpell_optional (by decide), bodyNodes_eq_nil]
  cases given with
  | none => simp [ifGiven, Tree.entriesSpell_nil]
  | some tree => simp [ifGiven, Tree.entriesSpell_nil]

theorem body_given {parent : String} {standard entries : List (String × Tree)}
    (spells : EntriesSpell parent [("statements", .ofEntries standard)] entries) :
    ∃ given, entries = ifGiven "statements" given := by
  obtain ⟨content, _, rfl, _, done⟩ | ⟨_, done⟩ := (Tree.entriesSpell_optional (by decide)).mp spells
  · cases Tree.entriesSpell_nil.mp done
    exact ⟨some content, rfl⟩
  · exact ⟨none, Tree.entriesSpell_nil.mp done⟩

include reader

theorem bodyOfFields_ok (parent : String) : (bodyOfFields readBody fields).result = .ok body ↔ bodyWellFormed body ∧
    EntriesSpell parent [("statements", .ofEntries (bodyNodes body))] (ifGiven "statements" (fields.look "statements")) := by
  rw [body_spells]
  unfold bodyOfFields Fields.look
  cases fields.get? "statements" with
  | none =>
    rw [Traced.pure_result_ok]
    constructor
    · rintro rfl
      exact ⟨trivial, rfl⟩
    · intro empty
      exact empty.2.symm
  | some part => exact reader.reads part body

/-- A set with a condition and a body is read from the fields of both. -/
theorem tested_ok {tag : String} (set : Content.under tag = .fields) :
    (∃ fields part, node.fields = .ok fields ∧ fields.allow ["expression", "statements"] = .ok () ∧
      fields.part "expression" = .ok part ∧ Expr.ofTree part.content = .ok condition ∧
      (bodyOfFields readBody fields).result = .ok body) ↔
      (condition.WellFormed .expression ∧ bodyWellFormed body) ∧
        Spells tag (.ofEntries [("expression", condition.tree), ("statements", .ofEntries (bodyNodes body))]) node.content := by
  constructor
  · rintro ⟨fields, part, listed, allowed, present, valued, read⟩
    obtain ⟨formed, spells⟩ := Expr.ofTree_spells.mp valued
    obtain ⟨inside, each⟩ := (bodyOfFields_ok reader tag).mp read
    have held := Fields.holds_among (by decide) listed allowed
    rw [Fields.among_cons, Fields.look_of_part present, Fields.among_cons, Fields.among_nil, List.append_nil] at held
    exact ⟨⟨formed, inside⟩, .fields set held (.cons spells each)⟩
  · rintro ⟨⟨formed, inside⟩, spells⟩
    obtain ⟨entries, held, each⟩ := (Tree.spells_fields set).mp spells
    obtain ⟨content, rest, rfl, spelt, last⟩ := (Tree.entriesSpell_cons (by decide) (.inr (by decide))).mp each
    obtain ⟨given, rfl⟩ := body_given last
    obtain ⟨fields, listed, look, allowed⟩ := held.read
    obtain ⟨part, present, rfl⟩ := Fields.part_of_look (look "expression")
    have found : fields.look "statements" = given := by
      rw [look]
      cases given <;> rfl
    refine ⟨fields, part, listed, allowed _ (by simp +contextual), present, Expr.ofTree_spells.mpr ⟨formed, spelt⟩, ?_⟩
    exact (bodyOfFields_ok reader tag).mpr ⟨inside, found ▸ last⟩

theorem untested_ok : (∃ fields, node.fields = .ok fields ∧ fields.allow ["expression", "statements"] = .ok () ∧
      fields.contains "expression" = false ∧ (bodyOfFields readBody fields).result = .ok body) ↔
      bodyWellFormed body ∧ Spells "else_branch" (.ofEntries [("statements", .ofEntries (bodyNodes body))]) node.content := by
  constructor
  · rintro ⟨fields, listed, allowed, absent, read⟩
    obtain ⟨inside, each⟩ := (bodyOfFields_ok reader "else_branch").mp read
    have held := Fields.holds_among (by decide) listed allowed
    have missing : fields.look "expression" = none := by
      rwa [Fields.contains_eq, Option.isSome_eq_false_iff, Option.isNone_iff_eq_none] at absent
    rw [Fields.among_cons, missing, Fields.among_cons, Fields.among_nil, List.append_nil] at held
    exact ⟨inside, .fields rfl held each⟩
  · rintro ⟨inside, spells⟩
    obtain ⟨entries, held, each⟩ := (Tree.spells_fields rfl).mp spells
    obtain ⟨given, rfl⟩ := body_given each
    obtain ⟨fields, listed, look, allowed⟩ := held.read
    have missing : fields.look "expression" = none := by
      rw [look]
      cases given <;> rfl
    have found : fields.look "statements" = given := by
      rw [look]
      cases given <;> rfl
    refine ⟨fields, listed, allowed _ (by simp +contextual), by rw [Fields.contains_eq, missing]; rfl, ?_⟩
    exact (bodyOfFields_ok reader "else_branch").mpr ⟨inside, found ▸ each⟩

theorem whileLoopOfNode_ok : (whileLoopOfNode readBody node).result = .ok statement ↔
    ∃ condition body, statement = .whileLoop condition body ∧ (condition.WellFormed .expression ∧ bodyWellFormed body) ∧
      Spells "while_loop" (.ofEntries [("expression", condition.tree), ("statements", .ofEntries (bodyNodes body))])
        node.content := by
  have set : Content.under "while_loop" = .fields := rfl
  unfold whileLoopOfNode
  simp only [Traced.lift_bind_ok, Traced.bind_result_ok fun _ => Steady.pure _, Traced.pure_result_ok, ← tested_ok reader set]
  constructor
  · rintro ⟨fields, listed, _, allowed, part, present, condition, valued, body, read, rfl⟩
    exact ⟨condition, body, rfl, fields, part, listed, allowed, present, valued, read⟩
  · rintro ⟨condition, body, rfl, fields, part, listed, allowed, present, valued, read⟩
    exact ⟨fields, listed, (), allowed, part, present, condition, valued, body, read, rfl⟩

omit reader in
theorem clauses_nil {values : List Expr} (parent : String) :
    EntriesSpell parent (Expr.itemNodes values ++ [("statements", .ofEntries (bodyNodes body))]) [] ↔
      values = [] ∧ body = [] := by
  cases values with
  | nil =>
    rw [Expr.itemNodes, List.nil_append, Tree.entriesSpell_optional (by decide), bodyNodes_eq_nil]
    simp [Tree.entriesSpell_nil]
  | cons value values =>
    rw [Expr.itemNodes, List.cons_append]
    simp [Tree.not_entriesSpell_nil (by decide : "expression" ∉ omittable) (.inr (by decide))]

omit reader in
/-- The first of the nodes holds the first of the expressions, or the body if nothing comes behind it. -/
theorem clauses_cons {nodes : List (Node tree)} {values : List Expr} (parent : String) :
    EntriesSpell parent (Expr.itemNodes values ++ [("statements", .ofEntries (bodyNodes body))])
      ((node :: nodes).map Node.entry) ↔
      (node.tag = "expression" ∧ ∃ value others, values = value :: others ∧ Spells "expression" value.tree node.content ∧
        EntriesSpell parent (Expr.itemNodes others ++ [("statements", .ofEntries (bodyNodes body))]) (nodes.map Node.entry)) ∨
      (node.tag = "statements" ∧ nodes = [] ∧ values = [] ∧ Spells "statements" (.ofEntries (bodyNodes body)) node.content) := by
  cases values with
  | nil =>
    rw [Expr.itemNodes, List.nil_append, Tree.entriesSpell_optional (by decide)]
    constructor
    · rintro (⟨content, rest, same, spells, done⟩ | ⟨_, odd⟩)
      · cases Tree.entriesSpell_nil.mp done
        obtain ⟨head, rest⟩ := List.cons.inj same
        obtain ⟨tagged, rfl⟩ := Prod.mk.injEq .. |>.mp head
        exact .inr ⟨tagged, List.map_eq_nil_iff.mp rest, rfl, spells⟩
      · cases Tree.entriesSpell_nil.mp odd
    · rintro (⟨_, _, _, odd, _⟩ | ⟨tagged, rfl, _, spells⟩)
      · cases odd
      · exact .inl ⟨_, [], by rw [List.map_cons, Node.entry_eq tagged, List.map_nil], spells, .nil⟩
  | cons value values =>
    rw [Expr.itemNodes, List.cons_append]
    refine (Tree.entriesSpell_node (by decide) (.inr (by decide))).trans ?_
    constructor
    · rintro ⟨tagged, spells, later⟩
      exact .inl ⟨tagged, value, values, rfl, spells, later⟩
    · rintro (⟨tagged, _, _, same, spells, later⟩ | ⟨_, _, odd, _⟩)
      · cases same
        exact ⟨tagged, spells, later⟩
      · cases odd

/-- Expressions and a body behind them are read from the nodes of both. -/
theorem readAll_ok {vocabulary : Vocabulary} {nodes : List (Node tree)} {values : List Expr} (parent : String) :
    (Clause.readAll vocabulary readBody (Clause.ofNodes nodes)).result = .ok (values, body) ↔
      (Expr.allWellFormed values ∧ bodyWellFormed body) ∧
        EntriesSpell parent (Expr.itemNodes values ++ [("statements", .ofEntries (bodyNodes body))]) (nodes.map Node.entry) := by
  have steady clauses : Steady (Clause.readAll vocabulary readBody clauses) := Clause.readAll_steady vocabulary reader.steady clauses
  induction nodes generalizing values with
  | nil =>
    rw [Clause.ofNodes, Clause.readAll, Traced.pure_result_ok, List.map_nil, clauses_nil]
    constructor
    · rintro ⟨⟩
      exact ⟨⟨trivial, trivial⟩, rfl, rfl⟩
    · rintro ⟨_, rfl, rfl⟩
      rfl
  | cons node nodes ih =>
    rw [Clause.ofNodes, clauses_cons]
    by_cases tagged : node.tag = "expression"
    · rw [if_pos tagged, Clause.readAll]
      simp only [Traced.lift_bind_ok, Traced.bind_result_ok fun _ => Steady.pure _, Traced.pure_result_ok]
      constructor
      · rintro ⟨value, valued, ⟨others, _⟩, read, made⟩
        cases made
        obtain ⟨formed, spells⟩ := Expr.ofTree_spells.mp valued
        obtain ⟨⟨rest, inside⟩, later⟩ := ih.mp read
        exact ⟨⟨⟨formed, rest⟩, inside⟩, .inl ⟨tagged, value, others, rfl, spells, later⟩⟩
      · rintro ⟨⟨formed, inside⟩, ⟨_, value, others, rfl, spells, later⟩ | ⟨odd, _⟩⟩
        · exact ⟨value, Expr.ofTree_spells.mpr ⟨formed.1, spells⟩, (others, body), ih.mpr ⟨⟨formed.2, inside⟩, later⟩, rfl⟩
        · simp [tagged] at odd
    · rw [if_neg tagged]
      by_cases last : node.tag = "statements" ∧ nodes = []
      · rw [if_pos last, Clause.readAll]
        obtain ⟨named, rfl⟩ := last
        simp only [Traced.bind_result_ok fun _ => Steady.bind (steady _) fun _ => Steady.pure _,
          Traced.bind_result_ok fun _ => Steady.pure _, Traced.pure_result_ok]
        constructor
        · rintro ⟨inside, read, ⟨others, _⟩, empty, made⟩
          cases Traced.pure_result_ok.mp empty
          cases made
          obtain ⟨formed, spells⟩ := (reader.reads node _).mp read
          exact ⟨⟨trivial, formed⟩, .inr ⟨named, trivial, rfl, spells⟩⟩
        · rintro ⟨⟨_, formed⟩, ⟨odd, _⟩ | ⟨_, _, rfl, spells⟩⟩
          · exact absurd odd tagged
          · exact ⟨body, (reader.reads node body).mpr ⟨formed, spells⟩, ([], []), Traced.pure_result_ok.mpr rfl, rfl⟩
      · rw [if_neg last, Clause.readAll]
        constructor
        · intro thrown
          cases thrown
        · rintro ⟨_, ⟨odd, _⟩ | ⟨named, empty, _⟩⟩
          · exact absurd odd tagged
          · exact absurd ⟨named, empty⟩ last

theorem forLoopOfNode_ok : (forLoopOfNode readBody node).result = .ok statement ↔
    ∃ name range body, statement = .forLoop name range body ∧
      (Expr.allWellFormed range.expressions ∧ bodyWellFormed body) ∧
      Spells "for_loop" (.ofEntries (("identifier", .text name) :: Expr.itemNodes range.expressions ++
        [("statements", .ofEntries (bodyNodes body))])) node.content := by
  have ordered : Content.under "for_loop" = .ordered := rfl
  unfold forLoopOfNode
  simp only [Traced.lift_bind_ok, Tree.spells_sequence ordered]
  constructor
  · rintro ⟨nodes, children, read⟩
    cases nodes with
    | nil => cases read
    | cons head rest =>
      simp only [Traced.lift_bind_ok, Traced.bind_result_ok fun _ => Steady.bind (.lift _) fun _ => Steady.pure _,
        Traced.pure_result_ok] at read
      obtain ⟨_, tagged, name, named, ⟨values, body⟩, inside, range, ranged, rfl⟩ := read
      cases rangeOfExpressions_ok.mp ranged
      obtain ⟨formed, spells⟩ := (readAll_ok reader "for_loop").mp inside
      refine ⟨name, range, body, rfl, formed, _, Node.children_ok.mp children, ?_⟩
      rw [List.map_cons, Node.entry_eq (Node.checkTag_ok.mp tagged)]
      exact .cons (.text rfl (Node.text_ok.mp named)) spells
  · rintro ⟨name, range, body, rfl, formed, entries, listed, spells⟩
    obtain ⟨nodes, children, rfl⟩ := Node.exists_children listed
    obtain ⟨content, rest, same, named, later⟩ := spells.of_text rfl (.inl (by decide))
    obtain ⟨⟨_, _, _⟩, others, rfl, head, rfl⟩ := List.map_eq_cons_iff.mp same
    cases head
    refine ⟨_, children, ?_⟩
    simp only [Traced.lift_bind_ok, Traced.bind_result_ok fun _ => Steady.bind (.lift _) fun _ => Steady.pure _,
      Traced.pure_result_ok]
    exact ⟨(), Node.checkTag_ok.mpr rfl, name, Node.text_ok.mpr named, (range.expressions, body),
      (readAll_ok reader "for_loop").mpr ⟨formed, later⟩, range, rangeOfExpressions_ok.mpr rfl, rfl⟩

end Bodies

end Statement
end Lowering
