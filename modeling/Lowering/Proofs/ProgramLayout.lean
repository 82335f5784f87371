import Mathlib
import Lowering.Proofs.FunctionIndependence
import Lowering.Proofs.InlineLiterals
import Lowering.Proofs.OutlineLayout
import Lowering.Proofs.ProgramText
import Lowering.Proofs.StatementRows

/-! Programs are laid out. Whatever the nesting of its statements, a program whose literals stay in their
lines has balanced braces, and each of its lines stands as deep as the blocks around it. -/

namespace Lowering

open Lowering.Action (Answers)
open Lowering.Layout (Balanced Indented Laid flat flat_append leads)

/-- The text ends the line of a statement or of a block. -/
def Layout.Ended (text : String) : Prop :=
  ∃ start, text = start ++ ";\n" ∨ text = start ++ "\x7d\n"

namespace Outline

private theorem closing_ends (alternatives : List (Option String × List Outline)) :
    ∃ start, closing alternatives = start ++ "\x7d\n" := by
  induction alternatives with
  | nil => exact ⟨"", by rw [closing, alternativeTexts]; rfl⟩
  | cons alternative rest ih =>
    obtain ⟨start, same⟩ := ih
    obtain ⟨head, body⟩ := alternative
    rw [closing_cons, same]
    exact ⟨_, by simp only [← String.append_assoc]; rfl⟩

theorem text_ended {outline : Outline} (some : outline ≠ .choice []) : Layout.Ended outline.text := by
  cases outline with
  | line text => exact ⟨text, .inl (by rw [Outline.text])⟩
  | choice alternatives =>
    cases alternatives with
    | nil => exact absurd rfl some
    | cons alternative rest =>
      obtain ⟨head, body⟩ := alternative
      obtain ⟨start, same⟩ := closing_ends rest
      rw [choice_text, same]
      exact ⟨_, .inr (by simp only [← String.append_assoc]; rfl)⟩

end Outline

namespace Statement

/-- All literals in the statement stay in their lines. -/
def Inline (statement : Statement) : Prop :=
  ∀ inner, Within inner statement → ∀ expr ∈ inner.expressions, ∀ value, Expr.Part (.literal value) expr → value.Inline

variable {statement : Statement} {statements : List Statement} {context : BodyContext}

/-- What shows a row of a statement that can be read stays in its line. -/
theorem row_neat (formed : statement.WellFormed) (inline : statement.Inline) {row : Nat × List Expr}
    (member : row ∈ statement.rows)
    {shown : Nat × String} (shows : Shows row shown) : flat shown.2 = true ∧ leads shown.2 = true := by
  refine shows.2.inline ?_
  intro expr among value part text written
  obtain ⟨inner, within, inside⟩ := row_within statement member among
  obtain ⟨level, formed⟩ := expressions_wellFormed (within.wellFormed formed) inside
  exact Literal.code_inline (part.literal_wellFormed formed) (inline inner within expr inside value part) written

/-- Whatever the scope that a statement goes through in, its text is balanced, and ends a line. -/
theorem code_layout (formed : statement.WellFormed) (inline : statement.Inline) {written : StatementCode}
    (answers : Answers (code context statement) written) : Balanced written.text.toList ∧ Layout.Ended written.text := by
  obtain ⟨outline, same, shown, some⟩ := code_outlined statement answers
  have neat : Outline.Neat outline.rows := by
    intro row member
    obtain ⟨own, among, shows⟩ := exists_left_of_forall₂ shown member
    exact row_neat formed inline among shows
  have laid := Outline.laid neat
  rw [← same]
  exact ⟨Layout.blocks_balanced laid.blocks, Outline.text_ended (some formed)⟩

theorem body_neat (formed : bodyWellFormed statements) (inline : ∀ statement ∈ statements, statement.Inline)
    {shown : List (Nat × String)} (shows : List.Forall₂ Shows (bodyRows statements) shown) : Outline.Neat shown := by
  intro row member
  obtain ⟨own, among, shows⟩ := exists_left_of_forall₂ shows member
  obtain ⟨statement, inBody, among⟩ := mem_bodyRows.mp among
  exact row_neat (bodyWellFormed_iff.mp formed statement inBody) (inline statement inBody) among shows

end Statement

namespace Function

variable {function : Function}

/-- A function is laid out if the lines of its body are. -/
theorem code_laid {outlines : List Outline} (body : Outline.bodyText outlines = function.body)
    (neat : Outline.Neat (Outline.bodyRows outlines)) {text : String} (written : function.code = .ok text) :
    Laid 0 text.toList 0 := by
  obtain ⟨head, heads, same⟩ := code_ok.mp written
  have block : text = (Outline.choice [(some head, outlines)]).text := by
    have opens : ∀ rest : String, " \x7b\n" ++ rest = " " ++ ("\x7b\n" ++ rest) := by
      intro rest
      rw [← String.append_assoc]
      rfl
    have closes : "\x7d\n" = "\x7d" ++ "\n" := rfl
    rw [same, Outline.block_text, Outline.opening, body, closes]
    simp only [String.append_assoc, opens]
  rw [block]
  apply Outline.laid
  rw [Outline.block_rows, Outline.neat_append, Outline.neat_deeper]
  refine ⟨?_, neat⟩
  intro row member
  cases List.mem_singleton.mp member
  exact leads_neat heads

end Function

namespace Program

/-- A program is laid out if its functions are. -/
theorem assembled_laid {texts : List String} (each : ∀ text ∈ texts, Laid 0 text.toList 0) :
    Laid 0 (assembled texts).toList 0 := by
  have opens : Laid 0 (opening ++ "\n").toList 0 := by
    have used : (Outline.line "use serene_runtime::prelude::*").text = opening := by
      rw [Outline.text]
      rfl
    have neat : Outline.Neat (Outline.line "use serene_runtime::prelude::*").rows := by
      simp [Outline.Neat, Outline.rows]
      decide
    have laid := Outline.laid neat
    rw [used] at laid
    rw [String.toList_append]
    exact laid.append (.blank (.done 0))
  have starts : Laid 0 start.toList 0 := by
    let block : Outline := .choice [(some "fn main()", [.line "sn_main()"])]
    have called : block.text = start := by
      simp only [block, Outline.text]
      cbv
    have neat : Outline.Neat block.rows := by
      simp [block, Outline.Neat, Outline.rows, Outline.alternativeRows, Outline.bodyRows, deeper]
      decide
    have laid := Outline.laid neat
    rwa [called] at laid
  have functions : Laid 0 (String.join (texts.map (· ++ "\n"))).toList 0 := by
    induction texts with
    | nil => exact .done 0
    | cons text texts ih =>
      obtain ⟨laid, later⟩ := List.forall_mem_cons.mp each
      rw [List.map_cons, String.join_cons, String.toList_append, String.toList_append, List.append_assoc]
      exact laid.append (.blank (ih later))
  rw [assembled, String.toList_append, String.toList_append, List.append_assoc]
  exact opens.append (functions.append starts)

/-- A program whose literals stay in their lines is laid out: its braces are balanced and its lines
indented as deep as the blocks around them. So is the text of every statement, whether it stands in a
function itself or in another statement, and it ends a line. -/
theorem layout_wellFormed {tree : Tree} {program : Program} {text : String} {definitions : List Definition}
    (accepted : (ofTree tree).result = .ok program) (written : program.code = .ok text)
    (parsed : Definition.listOfTree tree = .ok definitions)
    (inline : ∀ definition ∈ definitions, ∀ statements, definition.body = .ok statements →
      ∀ statement ∈ statements, statement.Inline) :
    Balanced text.toList ∧ Indented text.toList ∧
      (∀ function ∈ program.functions, ∀ code ∈ function.statements, Balanced code.text.toList ∧ Layout.Ended code.text) ∧
      ∀ definition ∈ definitions, ∀ statements, definition.body = .ok statements →
        ∀ outer ∈ statements, ∀ inner, Statement.Within inner outer →
          inner.Writes (definition.context (.table definitions)) ∧
          ∀ code, Answers (Statement.code (definition.context (.table definitions)) inner) code →
            Balanced code.text.toList ∧ Layout.Ended code.text := by
  obtain ⟨same, parsed', _, _, becomes⟩ := ofTree_ok.mp accepted
  cases parsed.symm.trans parsed'
  have formed {definition : Definition} {statements : List Statement} (read : definition.body = .ok statements) :=
    Statement.bodyWellFormed_iff.mp (Definition.body_wellFormed read)
  have laid : Laid 0 text.toList 0 := by
    obtain ⟨_, texts, each, rfl⟩ := code_ok.mp written
    refine assembled_laid ?_
    intro one among
    obtain ⟨function, member, coded⟩ := exists_left_of_forall₂ each among
    obtain ⟨definition, there, becomes⟩ := exists_left_of_forall₂ becomes member
    obtain ⟨statements, read, each, body⟩ := becomes.statements
    obtain ⟨outlines, same, shown⟩ := Statement.bodyOutlined_of_each each
    refine Function.code_laid (same.trans body.symm) ?_ coded
    exact Statement.body_neat (Definition.body_wellFormed read) (inline definition there statements read) shown
  refine ⟨Layout.blocks_balanced laid.blocks, laid.indented, ?_, ?_⟩
  · intro function member code among
    obtain ⟨definition, there, becomes⟩ := exists_left_of_forall₂ becomes member
    obtain ⟨statements, read, each, _⟩ := becomes.statements
    obtain ⟨statement, inBody, answers⟩ := exists_left_of_forall₂ each among
    have stays := inline definition there statements read statement inBody
    exact Statement.code_layout (formed read statement inBody) stays answers
  · intro definition there statements read outer inBody inner within
    obtain ⟨function, _, becomes⟩ := exists_of_forall₂ becomes there
    obtain ⟨statements', read', each, _⟩ := becomes.statements
    cases read.symm.trans read'
    obtain ⟨code, _, answers⟩ := exists_of_forall₂ each inBody
    refine ⟨within.writes ⟨code, answers⟩, ?_⟩
    intro code answers
    have deep : inner.Inline := by
      intro deeper below
      exact inline definition there statements read outer inBody deeper (below.trans within)
    exact Statement.code_layout (within.wellFormed (formed read outer inBody)) deep answers

section Sample

private def asking : List Statement :=
  [.whileLoop (.literal ⟨.bool, "true"⟩)
    [.ifBlock [(.literal ⟨.verbatim, "x"⟩, [.print [.literal ⟨.str, "\"a\""⟩]])] (some [.breaking])]]

private def asked : StatementCode :=
  ⟨.whileLoop, "loop \x7b\n    if x \x7b\n        Printer::stdout().write(SnString::from(\"a\")).endl();\n" ++
    "    \x7d else \x7b\n        break;\n    \x7d\n\x7d\n", false⟩

private def askingText : String :=
  "use serene_runtime::prelude::*;\n\nfn sn_main() \x7b\n    loop \x7b\n        if x \x7b\n" ++
    "            Printer::stdout().write(SnString::from(\"a\")).endl();\n        \x7d else \x7b\n            break;\n" ++
    "        \x7d\n    \x7d\n\x7d\n\nfn main() \x7b\n    sn_main();\n\x7d\n"

private theorem asking_formed : Statement.bodyWellFormed asking := by
  simp [asking, Statement.bodyWellFormed, Statement.WellFormed, Statement.branchesWellFormed, Statement.defaultWellFormed,
    Expr.WellFormed, Expr.allWellFormed, Literal.WellFormed]
  decide

set_option maxRecDepth 2000 in
private theorem asking_accepted : (ofTree (.ofMain asking)).result = .ok ⟨[(Definition.main asking).written [asked]]⟩ :=
  ofTree_ofMain asking_formed ⟨⟨.initial, []⟩, _, rfl, _, rfl, by cbv⟩

set_option maxRecDepth 2000 in
private theorem asking_written : code ⟨[(Definition.main asking).written [asked]]⟩ = .ok askingText := by
  cbv

private theorem asking_inline : ∀ statement ∈ asking, statement.Inline := by
  intro statement member inner within expr inside value part quoted
  cases List.mem_singleton.mp member
  cases within with
  | self =>
    cases List.mem_singleton.mp inside
    cases part
    simp at quoted
  | inWhile member within =>
    cases List.mem_singleton.mp member
    cases within with
    | self =>
      cases List.mem_singleton.mp inside
      cases part
      exact ⟨by simp, by simp⟩
    | inBranch one member within =>
      cases List.mem_singleton.mp one
      cases List.mem_singleton.mp member
      cases within
      cases List.mem_singleton.mp inside
      cases part
      exact ⟨by simp, by simp⟩
    | inElse member within =>
      cases List.mem_singleton.mp member
      cases within
      cases inside

theorem sample_layout :
    ∃ function, (ofTree (.ofMain asking)).result = .ok ⟨[function]⟩ ∧ code ⟨[function]⟩ = .ok askingText ∧
    Balanced askingText.toList ∧ Indented askingText.toList ∧
      ∀ code ∈ function.statements, Balanced code.text.toList ∧ Layout.Ended code.text := by
  have laid := layout_wellFormed asking_accepted asking_written (Definition.listOfTree_ofMain asking) ?_
  · exact ⟨_, asking_accepted, asking_written, laid.1, laid.2.1, laid.2.2.1 _ (List.mem_singleton_self _)⟩
  · intro definition member statements read
    cases List.mem_singleton.mp member
    cases (Statement.listOfTree_standard asking_formed).symm.trans read
    exact asking_inline

end Sample

end Program

end Lowering
