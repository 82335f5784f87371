import Mathlib
import Lowering.Proofs.Indentation
import Lowering.Proofs.Outlines
import Lowering.Proofs.ProgramParts
import Lowering.Proofs.StatementReading

/-! How a program is written out: an opening, the functions in their order, each as a block behind a line
that names it, and a block that starts the program. -/

namespace Lowering

open Lowering.Layout (flat flat_append leads)

private theorem flat_intercalate {mark : String} {texts : List String} (even : flat mark = true)
    (each : ∀ text ∈ texts, flat text = true) : flat (mark.intercalate texts) = true := by
  induction texts with
  | nil => rw [String.intercalate_nil]; rfl
  | cons first rest ih =>
    cases rest with
    | nil =>
      rw [String.intercalate_singleton]
      exact each first List.mem_cons_self
    | cons next later =>
      rw [String.intercalate_cons_cons]
      obtain ⟨begun, others⟩ := List.forall_mem_cons.mp each
      exact flat_append (flat_append begun even) (ih others)

theorem Parameter.code_flat {parameter : Parameter} {text : String} (written : parameter.code = .ok text) :
    flat text = true := by
  simp only [Parameter.code, except_bind_ok] at written
  obtain ⟨name, spelled, type, declared, written⟩ := written
  have word := (Layout.word_flat spelled).1
  have typed := Layout.type_flat declared
  split at written <;> cases written
  · exact flat_append (flat_append word rfl) typed
  · exact flat_append (flat_append word rfl) typed
  · exact flat_append (flat_append (flat_append rfl word) rfl) typed
  · exact flat_append (flat_append (flat_append rfl word) rfl) typed

namespace Function

variable {function : Function} {head text : String}

/-- The result that the line of a function declares, if any. -/
inductive Results : Option Tree → String → Prop where
  | none : Results .none ""
  | some {tree type} (written : DeclaredType.code tree = .ok type) : Results (.some tree) (" -> " ++ type)

/-- What leads into the block of a function: its name, its parameters and its result. -/
def Leads (function : Function) (head : String) : Prop :=
  ∃ name parameters result, Name.code function.name = .ok name ∧
    List.Forall₂ (fun parameter text => Parameter.code parameter = .ok text) function.parameters parameters ∧
    Results function.resultType result ∧ head = "fn " ++ name ++ "(" ++ ", ".intercalate parameters ++ ")" ++ result

theorem results_ok (type : Option Tree) (next : String → Except Error String) (text : String) :
    (match type with
      | some tree => (" -> " ++ ·) <$> DeclaredType.code tree >>= next
      | none => Except.ok "" >>= next) = .ok text ↔ ∃ result, Results type result ∧ next result = .ok text := by
  cases type with
  | none =>
    constructor
    · intro written
      exact ⟨"", .none, written⟩
    · intro ⟨result, results, written⟩
      cases results
      exact written
  | some tree =>
    simp only [except_bind_ok, except_map_ok]
    constructor
    · intro ⟨result, ⟨type, declared, same⟩, written⟩
      cases same
      exact ⟨_, .some declared, written⟩
    · intro ⟨result, results, written⟩
      cases results with
      | some declared => exact ⟨_, ⟨_, declared, rfl⟩, written⟩

theorem code_ok : function.code = .ok text ↔
    ∃ head, function.Leads head ∧ text = head ++ " \x7b\n" ++ Layout.indent 1 function.body ++ "\x7d\n" := by
  have resulting (parameters : List String) := results_ok function.resultType (fun result => do
    let name ← Name.code function.name
    return "fn " ++ name ++ "(" ++ ", ".intercalate parameters ++ ")" ++ result ++ " \x7b\n"
      ++ Layout.indent 1 function.body ++ "\x7d\n") text
  simp only [code, except_bind_ok, mapM_ok]
  constructor
  · intro ⟨parameters, listed, written⟩
    obtain ⟨result, results, written⟩ := (resulting parameters).mp written
    obtain ⟨name, spelled, same⟩ := except_bind_ok.mp written
    cases same
    exact ⟨_, ⟨name, parameters, result, spelled, listed, results, rfl⟩, rfl⟩
  · intro ⟨head, ⟨name, parameters, result, spelled, listed, results, heads⟩, same⟩
    refine ⟨parameters, listed, (resulting parameters).mpr ⟨result, results, except_bind_ok.mpr ⟨name, spelled, ?_⟩⟩⟩
    rw [same, heads]
    rfl

private theorem results_flat {type : Option Tree} {result : String} (results : Results type result) :
    flat result = true := by
  cases results with
  | none => rfl
  | some written => exact flat_append rfl (Layout.type_flat written)

/-- The line of a function stays in its line, whatever its names and types are. -/
theorem leads_neat (heads : function.Leads head) : flat head = true ∧ leads head = true := by
  obtain ⟨name, parameters, result, spelled, listed, results, rfl⟩ := heads
  have each : ∀ text ∈ parameters, flat text = true := by
    intro text member
    obtain ⟨parameter, _, written⟩ := exists_left_of_forall₂ listed member
    exact Parameter.code_flat written
  have named : flat ("fn " ++ name ++ "(") = true := flat_append (flat_append rfl (Layout.word_flat spelled).1) rfl
  refine ⟨flat_append (flat_append (flat_append named (flat_intercalate rfl each)) rfl) (results_flat results), ?_⟩
  simp only [String.append_assoc]
  exact Layout.leads_append rfl _

end Function

namespace Definition

open Lowering.Action (Answers)

variable {signatures : Signatures} {definition : Definition} {function : Function}

/-- The body of a function is the texts of its statements, one after another. -/
theorem Becomes.statements (becomes : definition.Becomes signatures function) :
    ∃ statements, definition.body = .ok statements ∧
      List.Forall₂ (fun statement code => Answers (Statement.code (definition.context signatures) statement) code)
        statements function.statements ∧
      function.body = String.join (function.statements.map StatementCode.text) := by
  obtain ⟨statements, codes, read, ⟨_, after, _, middle, _, coded⟩, _, rfl⟩ := becomes
  have answers : Answers (Function.statementCodes (definition.context signatures) statements) codes :=
    ⟨middle, after, coded⟩
  exact ⟨statements, read, answers.of_mapM_each, rfl⟩

end Definition

namespace Statement

theorem bodyOutlined_of_each {context : BodyContext} {statements : List Statement} {codes : List StatementCode}
    (each : List.Forall₂ (fun statement written => Action.Answers (code context statement) written) statements codes) :
    BodyOutlined (bodyRows statements) (String.join (codes.map StatementCode.text)) := by
  induction each with
  | nil => exact bodyOutlined_nil
  | @cons statement written _ _ answers _ ih =>
    rw [List.map_cons, String.join_cons]
    exact (code_outlined statement answers).cons ih

end Statement

/-- The body of a function is whole lines. -/
theorem Definition.Becomes.body_breaks {signatures : Signatures} {definition : Definition} {function : Function}
    (becomes : definition.Becomes signatures function) : Layout.breaks true function.body.toList = true := by
  obtain ⟨_, _, each, body⟩ := becomes.statements
  obtain ⟨outlines, same, _⟩ := Statement.bodyOutlined_of_each each
  rw [body, ← same]
  exact Outline.bodyText_breaks outlines

namespace Program

variable {program : Program} {text : String}

/-- Starts the program's own main function. -/
def start : String :=
  "fn main() \x7b\n    sn_main();\n\x7d\n"

/-- The text of a program whose functions come out as these texts. -/
def assembled (texts : List String) : String :=
  opening ++ "\n" ++ String.join (texts.map (· ++ "\n")) ++ start

theorem code_ok : program.code = .ok text ↔
    (∃ main, program.find? entry = some main ∧ main.parameters = [] ∧ main.resultType = none) ∧
      ∃ texts, List.Forall₂ (fun function text => Function.code function = .ok text) program.functions texts ∧
        text = assembled texts := by
  unfold code
  have spelled : Name.code entry = .ok "sn_main" := rfl
  have starts : "fn main() \x7b\n    " ++ "sn_main" ++ "();\n\x7d\n" = start := rfl
  split
  next missing =>
    constructor
    · intro thrown
      cases thrown
    · intro ⟨⟨main, found, _⟩, _⟩
      cases missing.symm.trans found
  next main found =>
    split
    next refused =>
      constructor
      · intro thrown
        cases thrown
      · intro ⟨⟨other, found', alone, silent⟩, _⟩
        cases found.symm.trans found'
        simp [alone, silent] at refused
    next allowed =>
      have plain : main.parameters = [] ∧ main.resultType = none := by
        simpa using allowed
      simp only [except_bind_ok, mapM_ok, spelled, except_pure, Except.ok.injEq, exists_eq_left', assembled, ← starts,
        ← String.append_assoc]
      constructor
      · intro ⟨texts, written, same⟩
        exact ⟨⟨main, found, plain⟩, texts, written, same.symm⟩
      · intro ⟨_, texts, written, same⟩
        exact ⟨texts, written, same.symm⟩

end Program

section Alone

/-! A program of one function. -/

/-- The main function with these statements. -/
def Definition.main (statements : List Statement) : Definition :=
  ⟨Program.entry, [], none, some (.ofEntries (Statement.bodyNodes statements))⟩

/-- The document of a program that has only a main function. -/
def Tree.ofMain (statements : List Statement) : Tree :=
  .ofFunctions true [.mapping [("function", .sequence [.mapping [("identifier", .text Program.entry)],
    .mapping [("statements", .ofEntries (Statement.bodyNodes statements))]])]]

variable {statements : List Statement} {codes : List StatementCode}

theorem Definition.listOfTree_ofMain (statements : List Statement) :
    listOfTree (.ofMain statements) = .ok [.main statements] := by
  unfold Tree.ofMain main
  generalize Tree.ofEntries (Statement.bodyNodes statements) = body
  cbv

theorem Program.ofTree_ofMain (formed : Statement.bodyWellFormed statements)
    (writes : (Definition.main statements).Writes (.table [.main statements]) statements codes) :
    (ofTree (.ofMain statements)).result = .ok ⟨[(Definition.main statements).written codes]⟩ := by
  refine ofTree_ok.mpr ⟨[.main statements], Definition.listOfTree_ofMain statements, List.nodup_singleton _,
    List.mem_singleton_self _, .cons ?_ .nil⟩
  exact ⟨statements, codes, Statement.listOfTree_standard formed, writes, nofun, rfl⟩

end Alone

end Lowering
