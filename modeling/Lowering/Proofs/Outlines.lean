import Mathlib
import Lowering.Proofs.AcceptedBodies
import Lowering.Proofs.Composition
import Lowering.Proofs.Indentation
import Lowering.Proofs.StatementNodes

/-! The outline of a text: its lines, and the blocks that stand between them. The text of a statement is
the text of an outline, row by row what the statement has at the same depth. -/

namespace Lowering

open Lowering.Action (Answers)

/-- A line, or alternatives of which each is a block of its own behind what leads into it. -/
inductive Outline where
  | line (text : String)
  | choice (alternatives : List (Option String × List Outline))

/-- Rows as they stand in a block. -/
def deeper {α : Type} (rows : List (Nat × α)) : List (Nat × α) :=
  rows.map (Prod.map (· + 1) id)

namespace Outline

/-- What leads into a block, set off from its brace. -/
def opening : Option String → String
  | none => ""
  | some head => head ++ " "

mutual

def text : Outline → String
  | line text => text ++ ";\n"
  | choice alternatives => " else ".intercalate (alternativeTexts alternatives) ++ "\n"

def alternativeTexts : List (Option String × List Outline) → List String
  | [] => []
  | (head, body) :: rest =>
    (opening head ++ ("\x7b\n" ++ Layout.indent 1 (bodyText body) ++ "\x7d")) :: alternativeTexts rest

def bodyText : List Outline → String
  | [] => ""
  | outline :: rest => outline.text ++ bodyText rest

end

mutual

/-- The texts in an outline in their order, each with the number of blocks around it. -/
def rows : Outline → List (Nat × String)
  | line text => [(0, text)]
  | choice alternatives => alternativeRows alternatives

def alternativeRows : List (Option String × List Outline) → List (Nat × String)
  | [] => []
  | (head, body) :: rest => head.toList.map (0, ·) ++ (deeper (bodyRows body) ++ alternativeRows rest)

def bodyRows : List Outline → List (Nat × String)
  | [] => []
  | outline :: rest => outline.rows ++ bodyRows rest

end

variable {first last : List (Option String × List Outline)}

theorem alternativeTexts_append :
    alternativeTexts (first ++ last) = alternativeTexts first ++ alternativeTexts last := by
  induction first with
  | nil => rfl
  | cons alternative rest ih => rw [List.cons_append, alternativeTexts, alternativeTexts, ih, List.cons_append]

theorem alternativeRows_append : alternativeRows (first ++ last) = alternativeRows first ++ alternativeRows last := by
  induction first with
  | nil => rfl
  | cons alternative rest ih => simp only [List.cons_append, alternativeRows, ih, List.append_assoc]

theorem block_text (head : Option String) (body : List Outline) :
    (choice [(head, body)]).text = opening head ++ ("\x7b\n" ++ Layout.indent 1 (bodyText body) ++ "\x7d") ++ "\n" := by
  simp only [text, alternativeTexts, String.intercalate_singleton]

theorem block_rows (head : Option String) (body : List Outline) :
    (choice [(head, body)]).rows = head.toList.map (0, ·) ++ deeper (bodyRows body) := by
  simp only [rows, alternativeRows, List.append_nil]

theorem text_breaks (outline : Outline) : Layout.breaks true outline.text.toList = true := by
  cases outline with
  | line text | choice alternatives =>
    rw [Outline.text, String.toList_append, Layout.breaks_append]
    rfl

/-- The text of outlines is whole lines. -/
theorem bodyText_breaks (outlines : List Outline) : Layout.breaks true (bodyText outlines).toList = true := by
  induction outlines with
  | nil =>
    rw [bodyText]
    rfl
  | cons outline rest ih => rw [bodyText, String.toList_append, Layout.breaks_append, text_breaks, ih]

end Outline

namespace Statement

mutual

/-- The rows of a statement: the expressions that come out in one line, with the number of blocks around
it. A condition that is written as true does not come out, and a match has a block around all of it. -/
def rows : Statement → List (Nat × List Expr)
  | whileLoop condition body => (0, if condition.isTrue then [] else [condition]) :: deeper (bodyRows body)
  | forLoop _ range body => (0, range.expressions) :: deeper (bodyRows body)
  | ifBlock branches otherwise => branchRows branches ++ defaultRows otherwise
  | matchBlock subject arms otherwise => deeper ((0, [subject]) :: (armRows arms ++ defaultRows otherwise))
  | print values => [(0, values)]
  | binding _ _ _ value => [(0, [value])]
  | set target _ value => [(0, [target, value])]
  | run term => [(0, [term])]
  | returning value => [(0, value.toList)]
  | breaking | continuing => [(0, [])]

def bodyRows : List Statement → List (Nat × List Expr)
  | [] => []
  | statement :: rest => statement.rows ++ bodyRows rest

def branchRows : List (Expr × List Statement) → List (Nat × List Expr)
  | [] => []
  | (condition, body) :: rest => (0, [condition]) :: (deeper (bodyRows body) ++ branchRows rest)

def armRows : List (List Expr × List Statement) → List (Nat × List Expr)
  | [] => []
  | (values, body) :: rest => (0, values) :: (deeper (bodyRows body) ++ armRows rest)

def defaultRows : Option (List Statement) → List (Nat × List Expr)
  | none => []
  | some body => deeper (bodyRows body)

end

/-- A row of a text shows the row of a statement: it is as deep and composed of its expressions. -/
def Shows (row : Nat × List Expr) (shown : Nat × String) : Prop :=
  row.1 = shown.1 ∧ Expr.Composed row.2 shown.2

theorem shows_deeper {rows : List (Nat × List Expr)} {shown : List (Nat × String)}
    (each : List.Forall₂ Shows rows shown) :
    List.Forall₂ Shows (deeper rows) (deeper shown) := by
  unfold deeper
  rw [List.forall₂_map_left_iff, List.forall₂_map_right_iff]
  exact each.imp fun _ _ ⟨same, composed⟩ => ⟨congrArg (· + 1) same, composed⟩

variable {context : BodyContext}

section Lines

open Lowering.Layout (flat leads)
open Lowering.Expr (Composed)

theorem lentCode_composed {expr : Expr} {text : String} (answers : Answers (expr.lentCode context.signatures) text) :
    Composed [expr] text :=
  .of_lent (fun _ _ => Expr.code_composed expr) (Expr.lend_lent answers)

theorem ownedCode_composed {expr : Expr} {text : String} (answers : Answers (expr.ownedCode context.signatures) text) :
    Composed [expr] text :=
  .of_owned (fun _ _ => Expr.code_composed expr) (Expr.own_owned answers)

theorem mapM_composed {values : List Expr} {form : Expr → Action String} {texts : List String}
    (each : ∀ value text, Answers (form value) text → Composed [value] text) (answers : Answers (values.mapM form) texts) :
    List.Forall₂ (fun value text => Composed [value] text) values texts :=
  answers.of_mapM_each.imp each

theorem printCode_composed {values : List Expr} {text : String} (answers : Answers (printCode context values) text) :
    ∃ line, text = line ++ ";\n" ∧ Composed values line := by
  obtain ⟨texts, listed, same⟩ := answers.of_bind
  cases same.of_pure
  have each := mapM_composed (fun _ _ => lentCode_composed) listed
  have written := (Composed.mark "Printer::stdout()" rfl rfl).bracketed ".write(" ")" rfl rfl each
  have ends : ".endl();\n" = ".endl()" ++ ";\n" := rfl
  exact ⟨_, by rw [ends, ← String.append_assoc], written.behind ".endl()" rfl⟩

theorem declaration_composed {name word ascription inner : String} {value : Expr} (mutable : Bool)
    (spelled : Name.code name = .ok word) (typed : flat ascription = true) (composed : Composed [value] inner) :
    Composed [value] ((if mutable then "let mut " else "let ") ++ word ++ ascription ++ " = " ++ inner) := by
  have opens : Composed [] (if mutable then "let mut " else "let ") := by
    cases mutable with
    | true => exact .mark "let mut " rfl rfl
    | false => exact .mark "let " rfl rfl
  have declared := (opens.behind word (Layout.word_flat spelled).1).behind ascription typed
  exact (declared.behind " = " rfl).append composed

theorem bindingCode_composed {mutable : Bool} {name text : String} {type : Option Tree} {value : Expr}
    (answers : Answers (bindingCode context mutable name type value) text) :
    ∃ line, text = line ++ ";\n" ∧ Composed [value] line := by
  have typed : ∀ {tree ascription}, DeclaredType.code tree = .ok ascription → flat (": " ++ ascription) = true := by
    intro tree ascription declared
    exact Layout.flat_append rfl (Layout.type_flat declared)
  simp only [bindingCode] at answers
  split at answers
  next items tree =>
    obtain ⟨inner, written, answers⟩ := answers.of_bind
    obtain ⟨_, _, answers⟩ := answers.of_bind
    obtain ⟨_, written', answers⟩ := answers.of_bind
    obtain ⟨ascription, declared, rfl⟩ := written'.of_map
    obtain ⟨word, spelled, same⟩ := answers.of_bind
    cases same.of_pure
    have composed : Composed [.collection items] inner := by
      obtain ⟨vector, within, rfl⟩ := written.of_map
      obtain ⟨texts, listed, same⟩ := within.of_bind
      cases same.of_pure
      have elements := Composed.vector (Expr.ownedCodes_composed items listed)
      exact .within (fun _ => Expr.noConfusion) (elements.behind ".into()" rfl)
    exact ⟨_, rfl, declaration_composed mutable spelled.of_lift (typed declared.of_lift) composed⟩
  next =>
    obtain ⟨inner, written, answers⟩ := answers.of_bind
    obtain ⟨_, _, answers⟩ := answers.of_bind
    have composed := ownedCode_composed written
    split at answers
    next tree =>
      obtain ⟨_, written', answers⟩ := answers.of_bind
      obtain ⟨ascription, declared, rfl⟩ := written'.of_map
      obtain ⟨word, spelled, same⟩ := answers.of_bind
      cases same.of_pure
      exact ⟨_, rfl, declaration_composed mutable spelled.of_lift (typed declared.of_lift) composed⟩
    next =>
      obtain ⟨ascription, none, answers⟩ := answers.of_bind
      cases none.of_pure
      obtain ⟨word, spelled, same⟩ := answers.of_bind
      cases same.of_pure
      exact ⟨_, rfl, declaration_composed mutable spelled.of_lift rfl composed⟩

theorem setCode_composed {target value : Expr} {operator : AssignOp} {text : String}
    (answers : Answers (setCode context target operator value) text) :
    ∃ line, text = line ++ ";\n" ∧ Composed [target, value] line := by
  have assignment : ∀ {place inner}, Composed [target] place → Composed [value] inner →
      Composed [target, value] (place ++ " " ++ operator.symbol ++ " " ++ inner) := by
    intro place inner placed composed
    have mark : flat operator.symbol = true := by
      cases operator <;> rfl
    exact .append (.behind (.behind (.behind placed " " rfl) _ mark) " " rfl) composed
  unfold setCode at answers
  split at answers
  next =>
    obtain ⟨_, _, thrown⟩ := answers
    exact (throw_ok thrown).elim
  next =>
    obtain ⟨binding, _, answers⟩ := answers.of_bind
    obtain ⟨inner, owned, answers⟩ := answers.of_bind
    have composed := ownedCode_composed owned
    split at answers
    · obtain ⟨place, placed, same⟩ := answers.of_bind
      cases same.of_pure
      obtain ⟨word, spelled, rfl⟩ := placed.of_map
      exact ⟨_, rfl, assignment (Composed.variable_named spelled.of_lift "*" rfl rfl) composed⟩
    · obtain ⟨place, placed, same⟩ := answers.of_bind
      cases same.of_pure
      exact ⟨_, rfl, assignment (Expr.code_composed _ placed) composed⟩

theorem returningCode_composed {value : Option Expr} {text : String}
    (answers : Answers (returningCode context value) text) :
    ∃ line, text = line ++ ";\n" ∧ Composed value.toList line := by
  unfold returningCode at answers
  split at answers
  next value _ =>
    obtain ⟨inner, owned, same⟩ := answers.of_bind
    cases same.of_pure
    exact ⟨_, rfl, (ownedCode_composed owned).opening "return " rfl rfl⟩
  next =>
    cases answers.of_pure
    exact ⟨"return", rfl, .mark "return" rfl rfl⟩
  next =>
    obtain ⟨_, _, thrown⟩ := answers
    exact (throw_ok thrown).elim
  next =>
    obtain ⟨_, _, thrown⟩ := answers
    exact (throw_ok thrown).elim

theorem jumpCode_composed {keyword text : String} (even : flat keyword = true) (begins : leads keyword = true)
    (answers : Answers (jumpCode keyword) text) : ∃ line, text = line ++ ";\n" ∧ Composed [] line := by
  obtain ⟨inLoop, _, answers⟩ := answers.of_bind
  split at answers
  · cases answers.of_pure
    exact ⟨_, rfl, .mark keyword even begins⟩
  · obtain ⟨_, _, thrown⟩ := answers
    exact (throw_ok thrown).elim

theorem rangeCode_composed {range : Range} {header : String} {borrowed : Bool}
    (answers : Answers (rangeCode context range) (header, borrowed)) : Composed range.expressions header := by
  cases range with
  | bounds first last =>
    obtain ⟨lower, begun, answers⟩ := answers.of_bind
    obtain ⟨upper, closed, same⟩ := answers.of_bind
    cases same.of_pure
    have start := (Expr.code_composed first begun).enclosed "(" rfl rfl ")..(" rfl
    exact (start.append (Expr.code_composed last closed)).behind ")" rfl
  | each collection =>
    simp only [rangeCode] at answers
    split at answers
    · obtain ⟨inner, written, same⟩ := answers.of_bind
      cases same.of_pure
      exact (Expr.code_composed collection written).behind ".iter()" rfl
    · obtain ⟨inner, written, same⟩ := answers.of_bind
      cases same.of_pure
      exact (Expr.code_composed collection written).enclosed "(" rfl rfl ").iter()" rfl

theorem subjectCode_composed {subject : Expr} {text : String} (answers : Answers (subjectCode context subject) text) :
    Composed [subject] text := by
  unfold subjectCode at answers
  split at answers
  · exact lentCode_composed answers
  · obtain ⟨inner, written, same⟩ := answers.of_bind
    cases same.of_pure
    exact (Expr.code_composed subject written).enclosed "&(" rfl rfl ")" rfl

theorem testCode_composed {value : Expr} {text : String} (answers : Answers (testCode context value) text) :
    Composed [value] text := by
  obtain ⟨inner, written, same⟩ := answers.of_bind
  cases same.of_pure
  refine Composed.opening "*match_subject == " rfl rfl ?_
  split
  · exact (Expr.code_composed value written).enclosed "(" rfl rfl ")" rfl
  · exact Expr.code_composed value written

end Lines

/-- What the text of a statement is the text of. -/
def Outlined (statement : Statement) (text : String) : Prop :=
  ∃ outline : Outline, outline.text = text ∧ List.Forall₂ Shows statement.rows outline.rows ∧
    (statement.WellFormed → outline ≠ .choice [])

/-- A statement without a body comes out as a line. -/
theorem outlined_line {statement : Statement} {exprs : List Expr} {text : String}
    (alone : statement.rows = [(0, exprs)]) (written : ∃ line, text = line ++ ";\n" ∧ Expr.Composed exprs line) :
    statement.Outlined text := by
  obtain ⟨line, rfl, composed⟩ := written
  refine ⟨.line line, by rw [Outline.text], ?_, nofun⟩
  rw [alone, Outline.rows]
  exact .cons ⟨rfl, composed⟩ .nil

/-- What the texts of alternatives are the texts of. -/
def ChoiceOutlined (rows : List (Nat × List Expr)) (count : Nat) (texts : List String) : Prop :=
  ∃ alternatives, Outline.alternativeTexts alternatives = texts ∧
    List.Forall₂ Shows rows (Outline.alternativeRows alternatives) ∧ alternatives.length = count

def BodyOutlined (rows : List (Nat × List Expr)) (text : String) : Prop :=
  ∃ outlines, Outline.bodyText outlines = text ∧ List.Forall₂ Shows rows (Outline.bodyRows outlines)

section Bodies

theorem bodyOutlined_nil : BodyOutlined (bodyRows []) "" :=
  ⟨[], by rw [Outline.bodyText], by rw [bodyRows, Outline.bodyRows]; exact .nil⟩

theorem Outlined.cons {statement : Statement} {rest : List Statement} {first later : String}
    (begun : statement.Outlined first) (goes : BodyOutlined (bodyRows rest) later) :
    BodyOutlined (bodyRows (statement :: rest)) (first ++ later) := by
  obtain ⟨outline, text, shown, _⟩ := begun
  obtain ⟨outlines, texts, shown'⟩ := goes
  refine ⟨outline :: outlines, by rw [Outline.bodyText, text, texts], ?_⟩
  rw [bodyRows, Outline.bodyRows]
  exact List.rel_append shown shown'

theorem inBody_outlined {inner : Action BodyCode} {block : BodyCode} (answers : Answers (inBody inner) block) :
    ∃ inside, Answers inner inside ∧ block.block = "\x7b\n" ++ Layout.indent 1 inside.text ++ "\x7d" := by
  obtain ⟨inside, ran, same⟩ := answers.of_bind
  cases same.of_pure
  exact ⟨inside, ran.of_between, rfl⟩

/-- A body behind a line that leads into it comes out as a block. -/
theorem outlined_block {statement : Statement} {exprs : List Expr} {rows : List (Nat × List Expr)}
    {head inside : String} (headed : statement.rows = (0, exprs) :: deeper rows) (composed : Expr.Composed exprs head)
    (body : BodyOutlined rows inside) :
    statement.Outlined (head ++ " " ++ ("\x7b\n" ++ Layout.indent 1 inside ++ "\x7d") ++ "\n") := by
  obtain ⟨outlines, rfl, shown⟩ := body
  refine ⟨.choice [(some head, outlines)], Outline.block_text _ _, ?_, fun _ => nofun⟩
  rw [headed, Outline.block_rows]
  exact .cons ⟨rfl, composed⟩ (shows_deeper shown)

theorem cons_outlined {rows later : List (Nat × List Expr)} {exprs : List Expr} {head inside : String}
    {block : BodyCode} {choice : ChoiceCode} {count : Nat} (composed : Expr.Composed exprs head)
    (blocked : block.block = "\x7b\n" ++ Layout.indent 1 inside ++ "\x7d") (body : BodyOutlined rows inside)
    (rest : ChoiceOutlined later count choice.texts) :
    ChoiceOutlined ((0, exprs) :: (deeper rows ++ later)) (count + 1)
      (ChoiceCode.cons (head ++ " ") block choice).texts := by
  obtain ⟨outlines, rfl, shown⟩ := body
  obtain ⟨alternatives, texts, others, counted⟩ := rest
  refine ⟨(some head, outlines) :: alternatives, ?_, ?_, congrArg (· + 1) counted⟩
  · rw [Outline.alternativeTexts, texts, ChoiceCode.cons, blocked, Outline.opening]
  · rw [Outline.alternativeRows]
    exact .cons ⟨rfl, composed⟩ (List.rel_append (shows_deeper shown) others)

/-- The default of a choice is its last alternative. -/
theorem close_outlined {rows later : List (Nat × List Expr)} {choice : ChoiceCode} {default : Option BodyCode}
    {count : Nat} (chosen : ChoiceOutlined rows count choice.texts)
    (closed : ChoiceOutlined later default.toList.length (default.toList.map BodyCode.block)) :
    ChoiceOutlined (rows ++ later) (count + default.toList.length) (choice.close default).texts := by
  obtain ⟨alternatives, texts, shown, counted⟩ := chosen
  obtain ⟨others, texts', shown', counted'⟩ := closed
  refine ⟨alternatives ++ others, ?_, ?_, by rw [List.length_append, counted, counted']⟩
  · rw [Outline.alternativeTexts_append, texts, texts']
    cases default with
    | none => exact List.append_nil _
    | some body => rfl
  · rw [Outline.alternativeRows_append]
    exact List.rel_append shown shown'

end Bodies

mutual

/-- The text of a statement is that of an outline with the statement's rows, and of a block at least. -/
theorem code_outlined : (statement : Statement) → {written : StatementCode} → Answers (code context statement) written →
    statement.Outlined written.text
  | print values, written, answers => by
    obtain ⟨text, printed, same⟩ := answers.of_bind
    cases same.of_pure
    exact outlined_line (by rw [rows]) (printCode_composed printed)
  | binding mutable name type value, written, answers => by
    obtain ⟨text, bound, same⟩ := answers.of_bind
    cases same.of_pure
    exact outlined_line (by rw [rows]) (bindingCode_composed bound)
  | set target operator value, written, answers => by
    obtain ⟨text, assigned, same⟩ := answers.of_bind
    cases same.of_pure
    exact outlined_line (by rw [rows]) (setCode_composed assigned)
  | run term, written, answers => by
    obtain ⟨text, called, same⟩ := answers.of_bind
    cases same.of_pure
    exact outlined_line (by rw [rows]) ⟨text, rfl, Expr.code_composed term called⟩
  | returning value, written, answers => by
    obtain ⟨text, returned, same⟩ := answers.of_bind
    cases same.of_pure
    exact outlined_line (by rw [rows]) (returningCode_composed returned)
  | breaking, written, answers | continuing, written, answers => by
    obtain ⟨text, jumped, same⟩ := answers.of_bind
    cases same.of_pure
    exact outlined_line (by rw [rows]) (jumpCode_composed rfl rfl jumped)
  | whileLoop condition body, written, answers => by
    simp only [code] at answers
    obtain ⟨⟨test, block⟩, looped, answers⟩ := answers.of_bind
    obtain ⟨_, tested, looped⟩ := looped.of_between.of_bind
    obtain ⟨_, blocked, same⟩ := looped.of_bind
    cases same.of_pure
    obtain ⟨inside, listed, braced⟩ := inBody_outlined blocked
    have outlines := listCode_outlined body listed
    split at answers
    next always =>
      cases answers.of_pure
      rw [braced]
      exact outlined_block (by rw [rows, if_pos always]) (.mark "loop" rfl rfl) outlines
    next tested' =>
      cases answers.of_pure
      rw [braced]
      have composed := (Expr.code_composed condition tested).opening "while " rfl rfl
      exact outlined_block (by rw [rows, if_neg tested']) composed outlines
  | forLoop name range body, written, answers => by
    simp only [code] at answers
    obtain ⟨⟨header, borrowed⟩, ranged, answers⟩ := answers.of_bind
    obtain ⟨outcome, attempted, answers⟩ := answers.of_bind
    obtain ⟨target, spelled, answers⟩ := answers.of_bind
    obtain ⟨block, kept, answers⟩ := answers.of_bind
    cases kept.of_lift
    cases answers.of_pure
    obtain ⟨_, _, blocked⟩ := attempted.of_attempt.of_between.of_bind
    obtain ⟨inside, listed, braced⟩ := inBody_outlined blocked
    rw [braced]
    have named := ((Expr.Composed.word spelled.of_lift).opening "for " rfl rfl).behind " in " rfl
    have headed : (forLoop name range body).rows = (0, [] ++ range.expressions) :: deeper (bodyRows body) := by
      rw [rows, List.nil_append]
    exact outlined_block headed (named.append (rangeCode_composed ranged)) (listCode_outlined body listed)
  | ifBlock branches otherwise, written, answers => by
    simp only [code] at answers
    obtain ⟨choice, chosen, answers⟩ := answers.of_bind
    obtain ⟨default, closed, same⟩ := answers.of_bind
    cases same.of_pure
    obtain ⟨alternatives, texts, shown, counted⟩ :=
      close_outlined (branchCodes_outlined branches chosen) (defaultCode_outlined otherwise closed)
    refine ⟨.choice alternatives, by rw [Outline.text, texts, ChoiceCode.text], ?_, ?_⟩
    · rw [rows, Outline.rows]
      exact shown
    · intro formed none
      cases none
      rw [WellFormed] at formed
      have := List.length_pos_of_ne_nil formed.1
      simp only [List.length_nil] at counted
      omega
  | matchBlock subject arms otherwise, written, answers => by
    simp only [code] at answers
    obtain ⟨lent, viewed, answers⟩ := answers.of_bind
    obtain ⟨choice, chosen, answers⟩ := answers.of_bind
    obtain ⟨default, closed, same⟩ := answers.of_bind
    cases same.of_pure
    obtain ⟨alternatives, texts, shown, _⟩ :=
      close_outlined (armCodes_outlined arms chosen) (defaultCode_outlined otherwise closed)
    let outlines : List Outline := [.line ("let match_subject = " ++ lent), .choice alternatives]
    have inside : Outline.bodyText outlines = "let match_subject = " ++ lent ++ ";\n" ++ (choice.close default).text := by
      simp only [outlines, Outline.bodyText, Outline.text, texts, ChoiceCode.text, String.append_empty]
    refine ⟨.choice [(none, outlines)], ?_, ?_, fun _ => nofun⟩
    · rw [Outline.block_text, inside]
      simp only [Outline.opening, String.empty_append, String.append_assoc]
      rfl
    · rw [rows, Outline.block_rows]
      simp only [outlines, Outline.bodyRows, Outline.rows, List.append_nil, List.singleton_append, Option.toList_none,
        List.map_nil, List.nil_append]
      have subjectShown := (subjectCode_composed viewed).opening "let match_subject = " rfl rfl
      exact shows_deeper (.cons ⟨rfl, subjectShown⟩ shown)

theorem listCode_outlined :
    (statements : List Statement) → {all : BodyCode} → Answers (listCode context statements) all →
    BodyOutlined (bodyRows statements) all.text
  | [], all, answers => by
    cases answers.of_pure
    exact bodyOutlined_nil
  | statement :: rest, all, answers => by
    simp only [listCode] at answers
    obtain ⟨written, begun, answers⟩ := answers.of_bind
    obtain ⟨others, listed, same⟩ := answers.of_bind
    cases same.of_pure
    exact (code_outlined statement begun).cons (listCode_outlined rest listed)

theorem branchCodes_outlined : (branches : List (Expr × List Statement)) → {choice : ChoiceCode} →
    Answers (branchCodes context branches) choice → ChoiceOutlined (branchRows branches) branches.length choice.texts
  | [], choice, answers => by
    cases answers.of_pure
    exact ⟨[], by rw [Outline.alternativeTexts]; rfl, by rw [branchRows, Outline.alternativeRows]; exact .nil, rfl⟩
  | (condition, body) :: rest, choice, answers => by
    simp only [branchCodes] at answers
    obtain ⟨test, tested, answers⟩ := answers.of_bind
    obtain ⟨block, blocked, answers⟩ := answers.of_bind
    obtain ⟨later, chosen, same⟩ := answers.of_bind
    cases same.of_pure
    obtain ⟨inside, listed, braced⟩ := inBody_outlined blocked
    rw [branchRows]
    have composed := (Expr.code_composed condition tested).opening "if " rfl rfl
    exact cons_outlined composed braced (listCode_outlined body listed) (branchCodes_outlined rest chosen)

theorem armCodes_outlined : (arms : List (List Expr × List Statement)) → {choice : ChoiceCode} →
    Answers (armCodes context arms) choice → ChoiceOutlined (armRows arms) arms.length choice.texts
  | [], choice, answers => by
    cases answers.of_pure
    exact ⟨[], by rw [Outline.alternativeTexts]; rfl, by rw [armRows, Outline.alternativeRows]; exact .nil, rfl⟩
  | (values, body) :: rest, choice, answers => by
    simp only [armCodes] at answers
    obtain ⟨tests, tested, answers⟩ := answers.of_bind
    obtain ⟨block, blocked, answers⟩ := answers.of_bind
    obtain ⟨later, chosen, same⟩ := answers.of_bind
    cases same.of_pure
    obtain ⟨inside, listed, braced⟩ := inBody_outlined blocked
    rw [armRows]
    have composed := (Expr.Composed.mark "if " rfl rfl).sequence " || " rfl
      (mapM_composed (fun _ _ => testCode_composed) tested)
    exact cons_outlined composed braced (listCode_outlined body listed) (armCodes_outlined rest chosen)

theorem defaultCode_outlined : (otherwise : Option (List Statement)) → {default : Option BodyCode} →
    Answers (defaultCode context otherwise) default →
    ChoiceOutlined (defaultRows otherwise) default.toList.length (default.toList.map BodyCode.block)
  | none, default, answers => by
    cases answers.of_pure
    exact ⟨[], by rw [Outline.alternativeTexts]; rfl, by rw [defaultRows, Outline.alternativeRows]; exact .nil, rfl⟩
  | some body, default, answers => by
    simp only [defaultCode] at answers
    obtain ⟨block, blocked, rfl⟩ := answers.of_map
    obtain ⟨inside, listed, braced⟩ := inBody_outlined blocked
    obtain ⟨outlines, same, shown⟩ := listCode_outlined body listed
    refine ⟨[(none, outlines)], ?_, ?_, rfl⟩
    · simp only [Outline.alternativeTexts, Outline.opening, String.empty_append, Option.toList_some, List.map_cons,
        List.map_nil, braced, same]
    · rw [defaultRows, Outline.alternativeRows, Outline.alternativeRows]
      simpa using shows_deeper shown

end

end Statement
end Lowering
