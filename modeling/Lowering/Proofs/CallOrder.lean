import Mathlib
import Lowering.Proofs.AcceptedBodies
import Lowering.Proofs.ExprCalls
import Lowering.Proofs.StatementReading

/-! The calls in a function come out in the order of the source, however its statements nest: none is
left out, written twice or moved past another. -/

namespace Lowering

open Lowering.Action (Answers)
open Lowering.Tokens

namespace Statement

variable {context : BodyContext}

mutual

/-- The functions that a statement calls in the order of the source: a target stands before the value
that it is set to, and what leads into a body before the body. -/
def callees : Statement → List String
  | print values => values.flatMap Expr.callees
  | binding _ _ _ value => value.callees
  | set target _ value => target.callees ++ value.callees
  | run term => term.callees
  | returning value => value.toList.flatMap Expr.callees
  | breaking | continuing => []
  | whileLoop condition body => condition.callees ++ bodyCallees body
  | forLoop _ range body => range.expressions.flatMap Expr.callees ++ bodyCallees body
  | ifBlock branches otherwise => branchCallees branches ++ defaultCallees otherwise
  | matchBlock subject arms otherwise => subject.callees ++ (armCallees arms ++ defaultCallees otherwise)

def bodyCallees : List Statement → List String
  | [] => []
  | statement :: rest => statement.callees ++ bodyCallees rest

def branchCallees : List (Expr × List Statement) → List String
  | [] => []
  | (condition, body) :: rest => condition.callees ++ (bodyCallees body ++ branchCallees rest)

def armCallees : List (List Expr × List Statement) → List String
  | [] => []
  | (values, body) :: rest => values.flatMap Expr.callees ++ (bodyCallees body ++ armCallees rest)

def defaultCallees : Option (List Statement) → List String
  | none => []
  | some body => bodyCallees body

end

/-- No literal in the statement or in its bodies brings a parenthesis. -/
def Quiet (statement : Statement) : Prop :=
  ∀ inner, Within inner statement → ∀ expr ∈ inner.expressions, expr.Quiet

/-- The text ends with no word unfinished and calls these functions. -/
structure Calling (text : String) (names : List String) : Prop where
  whole : ended text = true
  calls : calleesIn text = names

section Forms

/-! The parts of a statement that are not bodies. -/

theorem lentCode_callees {expr : Expr} {text : String} (quiet : expr.Quiet)
    (answers : Answers (expr.lentCode context.signatures) text) : calleesIn text = expr.callees :=
  (Expr.lend_lent answers).callees fun _ _ => Expr.code_callees expr quiet

theorem ownedCode_callees {expr : Expr} {text : String} (quiet : expr.Quiet)
    (answers : Answers (expr.ownedCode context.signatures) text) : calleesIn text = expr.callees :=
  (Expr.own_owned answers).callees fun _ _ => Expr.code_callees expr quiet

theorem mapM_callees {values : List Expr} {form : Expr → Action String} {texts : List String}
    (each : ∀ value ∈ values, ∀ text, Answers (form value) text → calleesIn text = value.callees)
    (answers : Answers (values.mapM form) texts) : texts.flatMap calleesIn = values.flatMap Expr.callees := by
  have listed := answers.of_mapM_each
  clear answers
  induction listed with
  | nil => rfl
  | cons first _ ih =>
    obtain ⟨head, tail⟩ := List.forall_mem_cons.mp each
    rw [List.flatMap_cons, List.flatMap_cons, head _ first, ih tail]

theorem printCode_callees {values : List Expr} {text : String} (quiet : ∀ value ∈ values, value.Quiet)
    (answers : Answers (printCode context values) text) : Calling text (values.flatMap Expr.callees) := by
  obtain ⟨texts, listed, same⟩ := answers.of_bind
  cases same.of_pure
  have written : ∀ text, calleesIn (".write(" ++ text ++ ")") = calleesIn text := by
    intro text
    rw [calleesIn_closing _ ")" rfl, calleesIn_opening ".write(" text rfl]
  refine ⟨ended_append _ _ rfl rfl, ?_⟩
  rw [calleesIn_closing _ ".endl();\n" rfl, calleesIn_opening "Printer::stdout()" _ rfl,
    calleesIn_join (List.forall_mem_map.mpr fun text _ => ended_append _ ")" rfl rfl), List.flatMap_map]
  simp only [written]
  exact mapM_callees (fun value member _ => lentCode_callees (quiet value member)) listed

theorem declaration_callees {keyword word ascription inner name : String} (opening : opens keyword = true)
    (spelled : Name.code name = .ok word) (away : apart ascription = true) (annotated : calleesIn ascription = []) :
    Calling (keyword ++ word ++ ascription ++ " = " ++ inner ++ ";\n") (calleesIn inner) := by
  refine ⟨ended_append _ _ rfl rfl, ?_⟩
  rw [calleesIn_closing _ ";\n" rfl, calleesIn_ended (ended_append _ " = " rfl rfl), calleesIn_closing _ " = " rfl,
    calleesIn_append away, calleesIn_opening _ _ opening, calleesIn_name spelled, annotated]
  rfl

theorem bindingCode_callees {mutable : Bool} {name text : String} {type : Option Tree} {value : Expr}
    (quiet : value.Quiet) (answers : Answers (bindingCode context mutable name type value) text) :
    Calling text value.callees := by
  have keyword : opens (if mutable then "let mut " else "let ") = true := by
    cases mutable <;> rfl
  have typed : ∀ {tree ascription}, DeclaredType.code tree = .ok ascription →
      apart (": " ++ ascription) = true ∧ calleesIn (": " ++ ascription) = [] := by
    intro tree ascription declared
    exact ⟨apart_append rfl rfl, by rw [calleesIn_opening ": " _ rfl, calleesIn_type declared]⟩
  simp only [bindingCode] at answers
  split at answers
  next items tree =>
    obtain ⟨inner, written, answers⟩ := answers.of_bind
    obtain ⟨_, _, answers⟩ := answers.of_bind
    obtain ⟨_, written', answers⟩ := answers.of_bind
    obtain ⟨ascription, declared, rfl⟩ := written'.of_map
    obtain ⟨word, spelled, same⟩ := answers.of_bind
    cases same.of_pure
    have calls : calleesIn inner = (Expr.collection items).callees := by
      obtain ⟨vector, within, rfl⟩ := written.of_map
      obtain ⟨texts, listed, same⟩ := within.of_bind
      cases same.of_pure
      rw [calleesIn_closing _ ".into()" rfl, Expr.vector_callees,
        Expr.ownedCodes_callees items (fun item one => quiet.part (.inItem one .self)) listed, Expr.callees]
    obtain ⟨away, annotated⟩ := typed declared.of_lift
    rw [← calls]
    exact declaration_callees keyword spelled.of_lift away annotated
  next =>
    obtain ⟨inner, written, answers⟩ := answers.of_bind
    obtain ⟨_, _, answers⟩ := answers.of_bind
    rw [← ownedCode_callees quiet written]
    split at answers
    next tree =>
      obtain ⟨_, written', answers⟩ := answers.of_bind
      obtain ⟨ascription, declared, rfl⟩ := written'.of_map
      obtain ⟨word, spelled, same⟩ := answers.of_bind
      cases same.of_pure
      obtain ⟨away, annotated⟩ := typed declared.of_lift
      exact declaration_callees keyword spelled.of_lift away annotated
    next =>
      obtain ⟨ascription, none, answers⟩ := answers.of_bind
      cases none.of_pure
      obtain ⟨word, spelled, same⟩ := answers.of_bind
      cases same.of_pure
      exact declaration_callees keyword spelled.of_lift rfl rfl

theorem assignment_callees (operator : AssignOp) (place value : String) :
    Calling (place ++ " " ++ operator.symbol ++ " " ++ value ++ ";\n") (calleesIn place ++ calleesIn value) := by
  have mark : divides (" " ++ operator.symbol ++ " ") = true := by
    cases operator <;> rfl
  have grouped : place ++ " " ++ operator.symbol ++ " " ++ value = place ++ (" " ++ operator.symbol ++ " ") ++ value := by
    simp only [String.append_assoc]
  refine ⟨ended_append _ _ rfl rfl, ?_⟩
  rw [calleesIn_closing _ ";\n" rfl, grouped, calleesIn_between _ _ _ mark]

theorem setCode_callees {target value : Expr} {operator : AssignOp} {text : String} (targetQuiet : target.Quiet)
    (valueQuiet : value.Quiet) (answers : Answers (setCode context target operator value) text) :
    Calling text (target.callees ++ value.callees) := by
  unfold setCode at answers
  split at answers
  next =>
    obtain ⟨_, _, thrown⟩ := answers
    exact (throw_ok thrown).elim
  next =>
    obtain ⟨binding, _, answers⟩ := answers.of_bind
    obtain ⟨inner, owned, answers⟩ := answers.of_bind
    rw [← ownedCode_callees valueQuiet owned]
    split at answers
    · obtain ⟨place, placed, same⟩ := answers.of_bind
      cases same.of_pure
      obtain ⟨word, spelled, rfl⟩ := placed.of_map
      have none : calleesIn ("*" ++ word) = [] := by
        rw [calleesIn_opening "*" word rfl, calleesIn_name spelled.of_lift]
      rw [Expr.callees, ← none]
      exact assignment_callees operator _ _
    · obtain ⟨place, placed, same⟩ := answers.of_bind
      cases same.of_pure
      rw [← Expr.code_callees _ targetQuiet placed]
      exact assignment_callees operator _ _

theorem returningCode_callees {value : Option Expr} {text : String} (quiet : ∀ expr ∈ value.toList, expr.Quiet)
    (answers : Answers (returningCode context value) text) : Calling text (value.toList.flatMap Expr.callees) := by
  unfold returningCode at answers
  split at answers
  next value _ =>
    obtain ⟨inner, owned, same⟩ := answers.of_bind
    cases same.of_pure
    refine ⟨ended_append _ _ rfl rfl, ?_⟩
    rw [calleesIn_closing _ ";\n" rfl, calleesIn_opening "return " inner rfl,
      ownedCode_callees (quiet value (List.mem_singleton_self _)) owned]
    exact (List.append_nil _).symm
  next =>
    cases answers.of_pure
    exact ⟨rfl, rfl⟩
  next =>
    obtain ⟨_, _, thrown⟩ := answers
    exact (throw_ok thrown).elim
  next =>
    obtain ⟨_, _, thrown⟩ := answers
    exact (throw_ok thrown).elim

theorem jumpCode_callees {keyword text : String} (mute : calleesIn keyword = [])
    (answers : Answers (jumpCode keyword) text) : Calling text [] := by
  obtain ⟨inLoop, _, answers⟩ := answers.of_bind
  split at answers
  · cases answers.of_pure
    exact ⟨ended_append _ _ rfl rfl, (calleesIn_closing _ ";\n" rfl).trans mute⟩
  · obtain ⟨_, _, thrown⟩ := answers
    exact (throw_ok thrown).elim

theorem rangeCode_callees {range : Range} {header : String} {borrowed : Bool}
    (quiet : ∀ expr ∈ range.expressions, expr.Quiet) (answers : Answers (rangeCode context range) (header, borrowed)) :
    calleesIn header = range.expressions.flatMap Expr.callees := by
  cases range with
  | bounds first last =>
    obtain ⟨lower, begun, answers⟩ := answers.of_bind
    obtain ⟨upper, closed, same⟩ := answers.of_bind
    cases same.of_pure
    have firstCalls := Expr.code_callees first (quiet first (by simp [Range.expressions])) begun
    have lastCalls := Expr.code_callees last (quiet last (by simp [Range.expressions])) closed
    rw [calleesIn_closing _ ")" rfl, calleesIn_between _ ")..(" _ rfl,
      calleesIn_opening "(" lower rfl, firstCalls, lastCalls]
    simp [Range.expressions]
  | each collection =>
    have calls : ∀ form text, Answers (collection.code context.signatures form) text → calleesIn text = collection.callees :=
      fun _ _ => Expr.code_callees collection (quiet collection (List.mem_singleton_self _))
    simp only [rangeCode] at answers
    split at answers
    · obtain ⟨inner, written, same⟩ := answers.of_bind
      cases same.of_pure
      rw [calleesIn_closing _ ".iter()" rfl, calls _ _ written]
      exact (List.append_nil _).symm
    · obtain ⟨inner, written, same⟩ := answers.of_bind
      cases same.of_pure
      rw [calleesIn_closing _ ").iter()" rfl, calleesIn_opening "(" inner rfl, calls _ _ written]
      exact (List.append_nil _).symm

theorem subjectCode_callees {subject : Expr} {text : String} (quiet : subject.Quiet)
    (answers : Answers (subjectCode context subject) text) : calleesIn text = subject.callees := by
  unfold subjectCode at answers
  split at answers
  · exact lentCode_callees quiet answers
  · obtain ⟨inner, written, same⟩ := answers.of_bind
    cases same.of_pure
    rw [calleesIn_closing _ ")" rfl, calleesIn_opening "&(" inner rfl, Expr.code_callees subject quiet written]

theorem testCode_callees {value : Expr} {text : String} (quiet : value.Quiet)
    (answers : Answers (testCode context value) text) : calleesIn text = value.callees := by
  obtain ⟨inner, written, same⟩ := answers.of_bind
  cases same.of_pure
  rw [calleesIn_opening "*match_subject == " _ rfl, ← Expr.code_callees value quiet written]
  split
  · rw [calleesIn_closing _ ")" rfl, calleesIn_opening "(" inner rfl]
  · rfl

end Forms

section Bodies

theorem block_callees (body : BodyCode) : calleesIn body.block = calleesIn body.text := by
  rw [BodyCode.block, calleesIn_closing _ "\x7d" rfl, calleesIn_opening "\x7b\n" _ rfl]

/-- A body keeps its calls when it becomes a block. -/
theorem inBody_callees {inner : Action BodyCode} {block : BodyCode} (answers : Answers (inBody inner) block) :
    ∃ inside, Answers inner inside ∧ calleesIn block.block = calleesIn inside.text := by
  obtain ⟨inside, ran, same⟩ := answers.of_bind
  cases same.of_pure
  exact ⟨inside, ran.of_between, by rw [block_callees, calleesIn_indent]⟩

theorem choice_callees (choice : ChoiceCode) : Calling choice.text (choice.texts.flatMap calleesIn) := by
  refine ⟨ended_append _ _ rfl rfl, ?_⟩
  rw [ChoiceCode.text, calleesIn_closing _ "\n" rfl, calleesIn_intercalate rfl]

/-- The default of a choice comes behind its other alternatives. -/
theorem close_callees (choice : ChoiceCode) (otherwise : Option BodyCode) :
    (choice.close otherwise).texts.flatMap calleesIn =
      choice.texts.flatMap calleesIn ++ otherwise.toList.flatMap fun body => calleesIn body.block := by
  cases otherwise with
  | none => exact (List.append_nil _).symm
  | some body => exact List.flatMap_append

theorem cons_callees {test : String} (body : BodyCode) (rest : ChoiceCode) :
    (ChoiceCode.cons ("if " ++ test ++ " ") body rest).texts.flatMap calleesIn =
      calleesIn test ++ (calleesIn body.block ++ rest.texts.flatMap calleesIn) := by
  rw [ChoiceCode.cons, List.flatMap_cons, calleesIn_ended (ended_append _ " " rfl rfl), calleesIn_closing _ " " rfl,
    calleesIn_opening "if " test rfl, List.append_assoc]

end Bodies

mutual

theorem code_callees : (statement : Statement) → statement.Quiet → {written : StatementCode} →
    Answers (code context statement) written → Calling written.text statement.callees
  | print values, quiet, written, answers => by
    obtain ⟨text, printed, same⟩ := answers.of_bind
    cases same.of_pure
    exact printCode_callees (quiet _ .self) printed
  | binding mutable name type value, quiet, written, answers => by
    obtain ⟨text, bound, same⟩ := answers.of_bind
    cases same.of_pure
    exact bindingCode_callees (quiet _ .self value (List.mem_singleton_self _)) bound
  | set target operator value, quiet, written, answers => by
    obtain ⟨text, assigned, same⟩ := answers.of_bind
    cases same.of_pure
    exact setCode_callees (quiet _ .self target (by simp [expressions])) (quiet _ .self value (by simp [expressions]))
      assigned
  | run term, quiet, written, answers => by
    obtain ⟨text, called, same⟩ := answers.of_bind
    cases same.of_pure
    refine ⟨ended_append _ _ rfl rfl, ?_⟩
    rw [calleesIn_closing _ ";\n" rfl, Expr.code_callees term (quiet _ .self term (List.mem_singleton_self _)) called,
      callees]
  | returning value, quiet, written, answers => by
    obtain ⟨text, returned, same⟩ := answers.of_bind
    cases same.of_pure
    exact returningCode_callees (quiet _ .self) returned
  | breaking, quiet, written, answers | continuing, quiet, written, answers => by
    obtain ⟨text, jumped, same⟩ := answers.of_bind
    cases same.of_pure
    exact jumpCode_callees rfl jumped
  | whileLoop condition body, quiet, written, answers => by
    simp only [code] at answers
    obtain ⟨⟨test, block⟩, looped, answers⟩ := answers.of_bind
    obtain ⟨_, tested, looped⟩ := looped.of_between.of_bind
    obtain ⟨_, blocked, same⟩ := looped.of_bind
    cases same.of_pure
    obtain ⟨inside, listed, kept⟩ := inBody_callees blocked
    have bodyCalls := listCode_callees body (fun _ member _ within => quiet _ (.inWhile member within)) listed
    split at answers
    next always =>
      cases answers.of_pure
      refine ⟨ended_append _ _ rfl rfl, ?_⟩
      rw [calleesIn_closing _ "\n" rfl, calleesIn_opening "loop " _ rfl, kept, bodyCalls, callees,
        Expr.isTrue_callees always, List.nil_append]
    next =>
      cases answers.of_pure
      refine ⟨ended_append _ _ rfl rfl, ?_⟩
      rw [calleesIn_closing _ "\n" rfl, calleesIn_between _ " " _ rfl, calleesIn_opening "while " test rfl, kept, bodyCalls,
        Expr.code_callees condition (quiet _ .self condition (List.mem_singleton_self _)) tested, callees]
  | forLoop name range body, quiet, written, answers => by
    simp only [code] at answers
    obtain ⟨⟨header, borrowed⟩, ranged, answers⟩ := answers.of_bind
    obtain ⟨outcome, attempted, answers⟩ := answers.of_bind
    obtain ⟨target, spelled, answers⟩ := answers.of_bind
    obtain ⟨block, kept, answers⟩ := answers.of_bind
    cases kept.of_lift
    cases answers.of_pure
    obtain ⟨_, _, blocked⟩ := attempted.of_attempt.of_between.of_bind
    obtain ⟨inside, listed, kept⟩ := inBody_callees blocked
    have bodyCalls := listCode_callees body (fun _ member _ within => quiet _ (.inFor member within)) listed
    have rangeCalls := rangeCode_callees (quiet _ .self) ranged
    refine ⟨ended_append _ _ rfl rfl, ?_⟩
    rw [calleesIn_closing _ "\n" rfl, calleesIn_between _ " " _ rfl, calleesIn_between _ " in " _ rfl, calleesIn_opening "for " target rfl,
      calleesIn_name spelled.of_lift, rangeCalls, kept, bodyCalls, callees]
    rfl
  | ifBlock branches otherwise, quiet, written, answers => by
    simp only [code] at answers
    obtain ⟨choice, chosen, answers⟩ := answers.of_bind
    obtain ⟨default, closed, same⟩ := answers.of_bind
    cases same.of_pure
    have branchCalls := branchCodes_callees branches
      (fun branch one => quiet _ .self branch.1 (List.mem_map_of_mem one))
      (fun _ one _ member _ within => quiet _ (.inBranch one member within)) chosen
    have defaultCalls := defaultCode_callees otherwise
      (fun _ given _ member _ within => quiet _ (by cases given; exact .inElse member within)) closed
    obtain ⟨whole, calls⟩ := choice_callees (choice.close default)
    exact ⟨whole, by rw [calls, close_callees, branchCalls, defaultCalls, callees]⟩
  | matchBlock subject arms otherwise, quiet, written, answers => by
    simp only [code] at answers
    obtain ⟨lent, viewed, answers⟩ := answers.of_bind
    obtain ⟨choice, chosen, answers⟩ := answers.of_bind
    obtain ⟨default, closed, same⟩ := answers.of_bind
    cases same.of_pure
    have subjectCalls := subjectCode_callees (quiet _ .self subject List.mem_cons_self) viewed
    have armCalls := armCodes_callees arms
      (fun arm one value member => quiet _ .self value
        (List.mem_cons_of_mem _ (List.mem_flatMap.mpr ⟨arm, one, member⟩)))
      (fun _ one _ member _ within => quiet _ (.inArm one member within)) chosen
    have defaultCalls := defaultCode_callees otherwise
      (fun _ given _ member _ within => quiet _ (by cases given; exact .inDefault member within)) closed
    obtain ⟨whole, calls⟩ := choice_callees (choice.close default)
    refine ⟨ended_append _ _ rfl rfl, ?_⟩
    rw [calleesIn_closing _ "\x7d\n" rfl, calleesIn_opening "\x7b\n" _ rfl, calleesIn_indent,
      calleesIn_between _ ";\n" _ rfl, calleesIn_opening "let match_subject = " lent rfl,
      calls, close_callees, subjectCalls, armCalls, defaultCalls, callees]

theorem listCode_callees : (statements : List Statement) → (∀ statement ∈ statements, statement.Quiet) →
    {all : BodyCode} → Answers (listCode context statements) all → calleesIn all.text = bodyCallees statements
  | [], quiet, all, answers => by
    cases answers.of_pure
    rfl
  | statement :: rest, quiet, all, answers => by
    obtain ⟨first, later⟩ := List.forall_mem_cons.mp quiet
    simp only [listCode] at answers
    obtain ⟨written, begun, answers⟩ := answers.of_bind
    obtain ⟨others, listed, same⟩ := answers.of_bind
    cases same.of_pure
    obtain ⟨whole, calls⟩ := code_callees statement first begun
    rw [BodyCode.cons, calleesIn_ended whole, calls, listCode_callees rest later listed, bodyCallees]

theorem branchCodes_callees : (branches : List (Expr × List Statement)) →
    (∀ branch ∈ branches, branch.1.Quiet) →
    (∀ branch ∈ branches, ∀ statement ∈ branch.2, statement.Quiet) → {choice : ChoiceCode} →
    Answers (branchCodes context branches) choice → choice.texts.flatMap calleesIn = branchCallees branches
  | [], _, _, choice, answers => by
    cases answers.of_pure
    rfl
  | (condition, body) :: rest, conditions, bodies, choice, answers => by
    obtain ⟨first, others⟩ := List.forall_mem_cons.mp conditions
    obtain ⟨inFirst, inOthers⟩ := List.forall_mem_cons.mp bodies
    simp only [branchCodes] at answers
    obtain ⟨test, tested, answers⟩ := answers.of_bind
    obtain ⟨block, blocked, answers⟩ := answers.of_bind
    obtain ⟨later, chosen, same⟩ := answers.of_bind
    cases same.of_pure
    obtain ⟨inside, listed, kept⟩ := inBody_callees blocked
    rw [cons_callees, Expr.code_callees condition first tested, kept, listCode_callees body inFirst listed,
      branchCodes_callees rest others inOthers chosen, branchCallees]

theorem armCodes_callees : (arms : List (List Expr × List Statement)) →
    (∀ arm ∈ arms, ∀ value ∈ arm.1, value.Quiet) →
    (∀ arm ∈ arms, ∀ statement ∈ arm.2, statement.Quiet) → {choice : ChoiceCode} →
    Answers (armCodes context arms) choice → choice.texts.flatMap calleesIn = armCallees arms
  | [], _, _, choice, answers => by
    cases answers.of_pure
    rfl
  | (values, body) :: rest, tests, bodies, choice, answers => by
    obtain ⟨first, others⟩ := List.forall_mem_cons.mp tests
    obtain ⟨inFirst, inOthers⟩ := List.forall_mem_cons.mp bodies
    simp only [armCodes] at answers
    obtain ⟨texts, tested, answers⟩ := answers.of_bind
    obtain ⟨block, blocked, answers⟩ := answers.of_bind
    obtain ⟨later, chosen, same⟩ := answers.of_bind
    cases same.of_pure
    obtain ⟨inside, listed, kept⟩ := inBody_callees blocked
    have testCalls := mapM_callees (fun value member _ => testCode_callees (first value member)) tested
    rw [cons_callees, calleesIn_intercalate rfl, testCalls, kept, listCode_callees body inFirst listed,
      armCodes_callees rest others inOthers chosen, armCallees]

theorem defaultCode_callees : (otherwise : Option (List Statement)) →
    (∀ body, otherwise = some body → ∀ statement ∈ body, statement.Quiet) → {default : Option BodyCode} →
    Answers (defaultCode context otherwise) default →
    (default.toList.flatMap fun body => calleesIn body.block) = defaultCallees otherwise
  | none, _, default, answers => by
    cases answers.of_pure
    rfl
  | some body, quiet, default, answers => by
    simp only [defaultCode] at answers
    obtain ⟨block, blocked, rfl⟩ := answers.of_map
    obtain ⟨inside, listed, kept⟩ := inBody_callees blocked
    rw [Option.toList_some, List.flatMap_singleton, kept, listCode_callees body (quiet body rfl) listed, defaultCallees]

end

end Statement

namespace Function

variable {signatures : Signatures} {definition : Definition} {function : Function}

theorem statementCodes_callees {context : BodyContext} {statements : List Statement} {codes : List StatementCode}
    (quiet : ∀ statement ∈ statements, statement.Quiet) (answers : Answers (statementCodes context statements) codes) :
    calleesIn (String.join (codes.map StatementCode.text)) = Statement.bodyCallees statements := by
  have listed := answers.of_mapM_each
  clear answers
  induction listed with
  | nil => rfl
  | cons written _ ih =>
    obtain ⟨first, later⟩ := List.forall_mem_cons.mp quiet
    obtain ⟨whole, calls⟩ := Statement.code_callees _ first written
    rw [List.map_cons, String.join_cons, calleesIn_ended whole, calls, ih later, Statement.bodyCallees]

/-- The body that comes out for a function calls the functions that its statements call, each call
once and in the order of the source, as long as no literal brings a parenthesis. -/
theorem calls_in_order (accepted : (ofDefinition signatures definition).result = .ok function) :
    ∃ statements, definition.body = .ok statements ∧
      ((∀ statement ∈ statements, statement.Quiet) → calleesIn function.body = Statement.bodyCallees statements) := by
  obtain ⟨statements, codes, read, ⟨_, after, _, middle, _, coded⟩, _, rfl⟩ :=
    (ofDefinition_iff []).mp ⟨(ofDefinition signatures definition []).2, Prod.ext accepted rfl⟩
  exact ⟨statements, read, fun quiet => statementCodes_callees quiet ⟨middle, after, coded⟩⟩

section Sample

/-- Calls in a target, in arguments of arguments, in a condition and in a body. -/
private def calling : List Statement := [
  .set (.index (.identifier "v") (.call "place" [])) .assign
    (.call "sum" [(.look, .call "left" []), (.look, .call "right" [])]),
  .whileLoop (.call "more" []) [.run (.call "step" [])]]

private def called : Signatures :=
  ⟨[("place", ⟨[], true⟩), ("sum", ⟨[("x", .look), ("y", .look)], true⟩), ("left", ⟨[], true⟩),
    ("right", ⟨[], true⟩), ("more", ⟨[], true⟩), ("step", ⟨[], false⟩)]⟩

private def caller : Definition :=
  ⟨"main", [⟨"v", .text "", .mutate⟩], none, some (.ofEntries (Statement.bodyNodes calling))⟩

private theorem read_calling : caller.body = .ok calling := by
  refine Statement.listOfTree_standard ?_
  simp [calling, Statement.bodyWellFormed, Statement.WellFormed, Expr.WellFormed, Expr.argumentsWellFormed, Expr.isPath]

private theorem calling_quiet : ∀ statement ∈ calling, statement.Quiet := by
  intro statement member inner within expr inside value part
  fin_cases member
  · cases within
    fin_cases inside
    · cases part with
      | inIndexed part => nomatch part
      | inPosition part => cases part; contradiction
    · cases part with
      | inArgument one part => fin_cases one <;> (cases part; contradiction)
  · cases within with
    | self => fin_cases inside; cases part; contradiction
    | inWhile member within =>
      fin_cases member
      cases within
      fin_cases inside
      cases part
      contradiction

theorem sample_calls_in_order : ∃ function, (ofDefinition called caller).result = .ok function ∧
    function.body = "sn_v[(sn_place()) as usize] = sn_sum(&sn_left(), &sn_right());\nwhile sn_more() \x7b\n    sn_step();\n\x7d\n" ∧
    calleesIn function.body = ["place", "sum", "left", "right", "more", "step"] := by
  have becomes : ∃ codes, caller.Writes called calling codes ∧ (caller.written codes).body =
      "sn_v[(sn_place()) as usize] = sn_sum(&sn_left(), &sn_right());\nwhile sn_more() \x7b\n    sn_step();\n\x7d\n" :=
    ⟨_, ⟨⟨.initial, []⟩, _, rfl, _, rfl, by cbv⟩, by cbv⟩
  obtain ⟨codes, writes, text⟩ := becomes
  obtain ⟨reported, ran⟩ := (ofDefinition_iff []).mpr ⟨calling, codes, read_calling, writes,
    fun declares => absurd declares Bool.false_ne_true, rfl⟩
  have accepted : (ofDefinition called caller).result = .ok (caller.written codes) := congrArg Prod.fst ran
  obtain ⟨statements, read, calls⟩ := calls_in_order accepted
  cases read_calling.symm.trans read
  exact ⟨_, accepted, text, calls calling_quiet⟩

end Sample

end Function

end Lowering
