import Mathlib
import Lowering.Proofs.FunctionIndependence
import Lowering.Proofs.Indentation
import Lowering.Proofs.ProgramText
import Lowering.Proofs.StatementRows

/-! Where literals end up. A literal keeps its text up to its first line break; behind one, the blocks
around it move what is left of it to the right, as they move the code that it stands in. -/

namespace Lowering

open Lowering.Layout (hang hang_hang hang_inside infix_before infix_behind infix_intercalate toList_indent)

namespace Outline

mutual

/-- Every row hangs in the text as deep as it stands in the outline. -/
theorem row_hangs : (outline : Outline) → ∀ levels row, (levels, row) ∈ outline.rows →
    hang levels row.toList <:+: outline.text.toList
  | line text, levels, row, member => by
    rw [rows] at member
    cases List.mem_singleton.mp member
    rw [Outline.text, hang, Layout.shift_zero]
    exact infix_before (List.infix_refl _) _
  | choice alternatives, levels, row, member => by
    rw [rows] at member
    obtain ⟨one, among, inside⟩ := alternative_hangs alternatives levels row member
    rw [Outline.text]
    exact infix_before (inside.trans (infix_intercalate " else " among)) _

theorem alternative_hangs : (alternatives : List (Option String × List Outline)) → ∀ levels row,
    (levels, row) ∈ alternativeRows alternatives →
    ∃ text ∈ alternativeTexts alternatives, hang levels row.toList <:+: text.toList
  | [], levels, row, member => by
    rw [alternativeRows] at member
    cases member
  | (head, body) :: rest, levels, row, member => by
    rw [alternativeRows] at member
    rw [alternativeTexts]
    rcases List.mem_append.mp member with inHead | member
    · obtain ⟨head, some, same⟩ := List.mem_map.mp inHead
      cases Option.mem_toList.mp some
      cases same
      refine ⟨_, List.mem_cons_self, ?_⟩
      rw [opening, hang, Layout.shift_zero]
      exact infix_before (infix_before (List.infix_refl _) _) _
    · rcases List.mem_append.mp member with inBody | later
      · obtain ⟨outer, rfl, inside⟩ := mem_deeper.mp inBody
        refine ⟨_, List.mem_cons_self, ?_⟩
        have moved := hang_inside (body_hangs body outer row inside) 1 true
        rw [hang_hang, Nat.add_comm, ← toList_indent] at moved
        exact infix_behind _ (infix_before (infix_behind _ moved) _)
      · obtain ⟨text, among, inside⟩ := alternative_hangs rest levels row later
        exact ⟨text, List.mem_cons_of_mem _ among, inside⟩

theorem body_hangs : (outlines : List Outline) → ∀ levels row, (levels, row) ∈ bodyRows outlines →
    hang levels row.toList <:+: (bodyText outlines).toList
  | [], levels, row, member => by
    rw [bodyRows] at member
    cases member
  | outline :: rest, levels, row, member => by
    rw [bodyRows] at member
    rw [bodyText]
    rcases List.mem_append.mp member with first | later
    · exact infix_before (row_hangs outline levels row first) _
    · exact infix_behind _ (body_hangs rest levels row later)

end

end Outline

namespace Statement

/-- The literal comes out in a line of the statements that has this many blocks around it. -/
def Places (statements : List Statement) (levels : Nat) (value : Literal) : Prop :=
  ∃ exprs, (levels, exprs) ∈ bodyRows statements ∧ ∃ expr ∈ exprs, Expr.Part (.literal value) expr

/-- Each literal in the statements comes out at some place, unless it is a condition that does not. -/
theorem Within.places {statements : List Statement} {inner outer : Statement} {expr : Expr} {value : Literal}
    (member : outer ∈ statements) (within : Within inner outer)
    (comesOut : inner.loopsForever = false) (inside : expr ∈ inner.expressions) (part : Expr.Part (.literal value) expr) :
    ∃ levels, Places statements levels value := by
  obtain ⟨levels, exprs, row, among⟩ := exists_row comesOut inside
  obtain ⟨levels, row⟩ := within.row ⟨levels, row⟩
  exact ⟨levels, exprs, mem_bodyRows.mpr ⟨outer, member, row⟩, expr, among, part⟩

/-- Where a literal is placed, its text hangs from the blocks around it. -/
theorem Places.hangs {statements : List Statement} {levels : Nat} {value : Literal} {text : String}
    (places : Places statements levels value) (outlined : BodyOutlined (bodyRows statements) text) :
    ∃ piece, value.code = .ok piece ∧ hang levels piece.toList <:+: text.toList := by
  obtain ⟨exprs, row, expr, among, part⟩ := places
  obtain ⟨outlines, rfl, shown⟩ := outlined
  obtain ⟨⟨_, line⟩, inside, rfl, composed⟩ := exists_of_forall₂ shown row
  obtain ⟨piece, written, stands⟩ := composed.carries among part
  exact ⟨piece, written, (hang_inside stands levels false).trans (Outline.body_hangs outlines levels line inside)⟩

end Statement

namespace Program

open Lowering.Layout (Rigid)
open Lowering.Statement (Within Places)

variable {program : Program} {function : Function} {text : String}

/-- The text of every function stands in the text of the program. -/
theorem function_stands (written : program.code = .ok text) (member : function ∈ program.functions) :
    ∃ one, function.code = .ok one ∧ one.toList <:+: text.toList := by
  obtain ⟨_, texts, each, rfl⟩ := code_ok.mp written
  obtain ⟨one, among, coded⟩ := exists_of_forall₂ each member
  refine ⟨one, coded, infix_before (infix_behind _ ?_) _⟩
  rw [String.toList_join, List.flatMap_def]
  exact (infix_before (List.infix_refl _) "\n").trans
    (List.infix_of_mem_flatten (List.mem_map_of_mem (List.mem_map_of_mem among)))

/-- The body of a function stands in the program one level deeper. -/
theorem body_stands (written : program.code = .ok text) (member : function ∈ program.functions) :
    Layout.shift 1 true function.body.toList <:+: text.toList := by
  obtain ⟨one, coded, stands⟩ := function_stands written member
  obtain ⟨head, _, rfl⟩ := Function.code_ok.mp coded
  rw [← toList_indent]
  exact (infix_before (infix_behind _ (List.infix_refl _)) _).trans stands

/-- Every literal of an accepted program that comes out at all has a place under some blocks, and from
these its text hangs: in the body of its function, and one level deeper in the whole program. So it
stands there as it was written out exactly if it is rigid, or in the body if no block is around it. -/
theorem literals_hang {tree : Tree} (accepted : (ofTree tree).result = .ok program)
    (written : program.code = .ok text) :
    ∃ definitions, Definition.listOfTree tree = .ok definitions ∧ ∀ definition ∈ definitions, ∃ function statements,
      program.find? definition.name = some function ∧ definition.body = .ok statements ∧
      (∀ outer ∈ statements, ∀ inner, Within inner outer → inner.loopsForever = false →
        ∀ expr ∈ inner.expressions, ∀ value, Expr.Part (.literal value) expr → ∃ levels, Places statements levels value) ∧
      ∀ levels value, Places statements levels value → ∃ piece, value.code = .ok piece ∧
        hang levels piece.toList <:+: function.body.toList ∧ hang (levels + 1) piece.toList <:+: text.toList ∧
        (hang levels piece.toList = piece.toList ↔ levels = 0 ∨ Rigid piece.toList) ∧
        (hang (levels + 1) piece.toList = piece.toList ↔ Rigid piece.toList) := by
  obtain ⟨definitions, parsed, _⟩ := ofTree_ok.mp accepted
  refine ⟨definitions, parsed, ?_⟩
  intro definition member
  obtain ⟨function, found, becomes⟩ := find?_definition accepted parsed member
  obtain ⟨statements, read, each, body⟩ := becomes.statements
  refine ⟨function, statements, found, read, ?_, ?_⟩
  · intro outer among inner within comesOut expr inside value part
    exact within.places among comesOut inside part
  · intro levels value places
    obtain ⟨piece, coded, stands⟩ := places.hangs (body ▸ Statement.bodyOutlined_of_each each)
    have deeper := (hang_inside stands 1 true).trans (body_stands written (List.mem_of_find?_eq_some found))
    rw [hang_hang, Nat.add_comm] at deeper
    refine ⟨piece, coded, stands, deeper, Layout.hang_eq_iff levels _, ?_⟩
    rw [Layout.hang_eq_iff, or_iff_right (Nat.succ_ne_zero levels)]

section Sample

private def twoLines : Literal :=
  ⟨.str, "\"a\nb\""⟩

/-- A text of two lines, printed without end. -/
private def repeating : List Statement :=
  [.whileLoop (.literal ⟨.bool, "true"⟩) [.print [.literal twoLines]]]

private def repeated : StatementCode :=
  ⟨.whileLoop, "loop \x7b\n    Printer::stdout().write(SnString::from(\"a\n    b\")).endl();\n\x7d\n", false⟩

private def repeatingText : String :=
  "use serene_runtime::prelude::*;\n\nfn sn_main() \x7b\n    loop \x7b\n        " ++
    "Printer::stdout().write(SnString::from(\"a\n        b\")).endl();\n    \x7d\n\x7d\n\n" ++
    "fn main() \x7b\n    sn_main();\n\x7d\n"

private theorem repeating_formed : Statement.bodyWellFormed repeating := by
  simp [repeating, twoLines, Statement.bodyWellFormed, Statement.WellFormed, Expr.WellFormed, Expr.allWellFormed,
    Literal.WellFormed]

private theorem repeating_accepted :
    (ofTree (.ofMain repeating)).result = .ok ⟨[(Definition.main repeating).written [repeated]]⟩ := by
  refine ofTree_ofMain repeating_formed ⟨⟨.initial, []⟩, _, rfl, _, rfl, by cbv⟩

set_option maxRecDepth 2000 in
private theorem repeating_written : code ⟨[(Definition.main repeating).written [repeated]]⟩ = .ok repeatingText := by
  cbv

private theorem repeating_read : (Definition.main repeating).body = .ok repeating :=
  Statement.listOfTree_standard repeating_formed

private theorem repeating_places : Places repeating 1 twoLines := by
  refine ⟨[.literal twoLines], ?_, _, List.mem_singleton_self _, .self⟩
  simp [repeating, Statement.bodyRows, Statement.rows, mem_deeper]

theorem repeated_literal_hangs : ∃ function, (ofTree (.ofMain repeating)).result = .ok ⟨[function]⟩ ∧
    code ⟨[function]⟩ = .ok repeatingText ∧ ∃ piece, twoLines.code = .ok piece ∧
      hang 1 piece.toList <:+: function.body.toList ∧ hang 2 piece.toList <:+: repeatingText.toList ∧
      ¬ Rigid piece.toList ∧ hang 1 piece.toList ≠ piece.toList := by
  obtain ⟨definitions, parsed, each⟩ := literals_hang repeating_accepted repeating_written
  cases (Definition.listOfTree_ofMain repeating).symm.trans parsed
  obtain ⟨function, statements, found, read, _, hangs⟩ := each _ (List.mem_singleton_self _)
  cases repeating_read.symm.trans read
  cases found
  obtain ⟨piece, written, inBody, inText, moved, _⟩ := hangs 1 twoLines repeating_places
  have broken : ¬ Rigid piece.toList := by
    cases written
    intro rigid
    exact absurd (rigid 'b' (by decide +kernel)) (by decide)
  refine ⟨_, repeating_accepted, repeating_written, piece, written, inBody, inText, broken, ?_⟩
  rw [Ne, moved]
  simpa using broken

/-- The text of a literal with a line break need not occur anywhere. -/
theorem repeated_literal_moves : ∃ function piece,
    (ofTree (.ofMain repeating)).result = .ok ⟨[function]⟩ ∧ code ⟨[function]⟩ = .ok repeatingText ∧
      Places repeating 1 twoLines ∧ twoLines.code = .ok piece ∧
      ¬ piece.toList <:+: function.body.toList ∧ ¬ piece.toList <:+: repeatingText.toList := by
  refine ⟨_, _, repeating_accepted, repeating_written, repeating_places, rfl, ?_, ?_⟩
  · decide +kernel
  · decide +kernel

end Sample

end Program

end Lowering
