import Lowering.Proofs.CallTokens
import Lowering.Proofs.ExprParts

/-! The calls in an expression come out in the order of the source. Its text calls just what the
expression calls, each call once and in the same place among the others, unless a literal brings a
parenthesis of its own. -/

namespace Lowering

open Lowering.Action (Answers)
open Lowering.Tokens

theorem Literal.code_callees {literal : Literal} {text : String} (quiet : '(' ∉ literal.text.toList)
    (written : literal.code = .ok text) : calleesIn text = [] := by
  obtain ⟨kind, given⟩ := literal
  have plain : calleesIn given = [] := calleesAfter_plain [] quiet
  cases kind with
  | verbatim =>
    cases written
    exact plain
  | int | char =>
    simp only [code] at written
    split at written
    next => cases written; exact plain
    next => cases written
  | float =>
    simp only [code] at written
    split at written
    next => cases written
    next =>
      split at written
      next => cases written; exact plain
      next => cases written; rw [calleesIn_closing given ".0" rfl, plain]
  | bool =>
    simp only [code] at written
    split at written
    next lower =>
      cases written
      rcases lower with same | same <;> rw [same] <;> rfl
    next => cases written
  | str =>
    simp only [code] at written
    split at written
    next => cases written; rw [calleesIn_closing _ ")" rfl, calleesIn_opening "SnString::from(" given rfl, plain]
    next => cases written

namespace Expr

mutual

/-- The functions that an expression calls in the order of the source: a call stands before the calls
in its arguments, and a receiver before the arguments of its method. -/
def callees : Expr → List String
  | literal _ | identifier _ => []
  | call function arguments => function :: argumentCallees arguments
  | method receiver _ _ arguments => receiver.callees ++ listCallees arguments
  | field base _ => base.callees
  | index base position => base.callees ++ position.callees
  | unary _ operand => operand.callees
  | chain first rest => first.callees ++ chainCallees rest
  | paren inner => inner.callees
  | collection items => listCallees items

def argumentCallees : List (Accessor × Expr) → List String
  | [] => []
  | (_, value) :: arguments => value.callees ++ argumentCallees arguments

def chainCallees : List (BinaryOp × Expr) → List String
  | [] => []
  | (_, operand) :: rest => operand.callees ++ chainCallees rest

def listCallees : List Expr → List String
  | [] => []
  | expr :: rest => expr.callees ++ listCallees rest

end

/-- No literal in the expression brings a parenthesis. -/
def Quiet (expr : Expr) : Prop :=
  ∀ value, Part (literal value) expr → '(' ∉ value.text.toList

theorem Quiet.part {inner outer : Expr} (quiet : outer.Quiet) (part : Part inner outer) : inner.Quiet :=
  fun value inside => quiet value (inside.trans part)

theorem isTrue_callees {expr : Expr} (always : expr.isTrue = true) : expr.callees = [] := by
  match expr with
  | literal _ => rw [callees]
  | paren inner =>
    rw [callees]
    exact isTrue_callees always

section Forms

/-! The ways of using an expression add no call to its text. -/

variable {expr : Expr} {code : Form → Action String} {text : String}

theorem handOver_callees (expected : Accessor) (value : String) : calleesIn (handOver expected value) = calleesIn value := by
  cases expected with
  | look => exact calleesIn_opening "&" value rfl
  | mutate => exact calleesIn_opening "&mut " value rfl
  | move | copy => rfl

variable (each : ∀ form inner, Answers (code form) inner → calleesIn inner = expr.callees)

include each

theorem Lent.callees (lent : Lent expr code text) : calleesIn text = expr.callees := by
  cases lent with
  | referent same spelled => rw [calleesIn_opening "&*" _ rfl, calleesIn_name spelled, same, Expr.callees]
  | place _ written => rw [calleesIn_opening "&" _ rfl, each _ _ written]
  | value _ written => exact each _ _ written

theorem Owned.callees (owned : Owned expr code text) : calleesIn text = expr.callees := by
  cases owned with
  | duplicate _ written => rw [calleesIn_closing _ ".clone()" rfl, each _ _ written]
  | value _ written => exact each _ _ written

theorem Passed.callees {expected accessor : Accessor} (passed : Passed expr code expected accessor text) :
    calleesIn text = expr.callees := by
  cases passed with
  | @temporary _ inner _ written =>
    rw [handOver_callees, ← each _ _ written]
    split
    · rw [calleesIn_closing _ ")" rfl, calleesIn_opening "(" inner rfl]
    · rfl
  | duplicate _ written => rw [handOver_callees, calleesIn_closing _ ".clone()" rfl, each _ _ written]
  | lent _ lent => exact lent.callees each
  | referent same spelled => rw [calleesIn_opening "&mut *" _ rfl, calleesIn_name spelled, same, Expr.callees]
  | place _ written => rw [calleesIn_opening "&mut " _ rfl, each _ _ written]
  | moved same spelled => rw [calleesIn_name spelled, same, Expr.callees]

theorem argument_callees {operand : Method.Operand} (answers : Answers (Method.argument operand expr code) text) :
    calleesIn text = expr.callees := by
  obtain ⟨inner, written, rfl⟩ | owned := argument_given answers
  · rw [calleesIn_closing _ ") as usize" rfl, calleesIn_opening "(" inner rfl, each _ _ written]
  · exact owned.callees each

end Forms

/-- The name of a method belongs to the containers, so that no method counts as a call. -/
theorem call_callees (method : Method) (receiver : String) (arguments : List String) :
    calleesIn (method.call receiver arguments) = calleesIn receiver ++ arguments.flatMap calleesIn := by
  have stands : calleesIn (receiver ++ "." ++ method.name ++ "(" ++ ", ".intercalate arguments ++ ")") =
      calleesIn receiver ++ arguments.flatMap calleesIn := by
    have mark : divides ("." ++ method.name ++ "(") = true := by
      cases method <;> rfl
    have grouped : receiver ++ "." ++ method.name ++ "(" = receiver ++ ("." ++ method.name ++ "(") := by
      simp only [String.append_assoc]
    rw [calleesIn_closing _ ")" rfl, grouped, calleesIn_between _ _ _ mark,
      calleesIn_intercalate rfl]
  unfold Method.call
  split
  · rw [calleesIn_closing _ " as i64)" rfl, calleesIn_opening "(" _ rfl, stands]
  · exact stands

theorem vector_callees (items : List String) : calleesIn (vector items) = items.flatMap calleesIn := by
  rw [vector, calleesIn_closing _ "]" rfl, calleesIn_opening "vec![" _ rfl, calleesIn_intercalate rfl]

variable {signatures : Signatures}

mutual

theorem code_callees {form : Form} : (expr : Expr) → expr.Quiet → {text : String} →
    Answers (expr.code signatures form) text → calleesIn text = expr.callees
  | literal value, quiet, text, answers => by
    simp only [code] at answers
    rw [Literal.code_callees (quiet value .self) answers.of_lift, callees]
  | identifier name, quiet, text, answers => by
    simp only [code] at answers
    obtain ⟨binding, _, answers⟩ := answers.of_bind
    obtain ⟨word, spelled, answers⟩ := answers.of_bind
    have none := calleesIn_name spelled.of_lift
    cases form with
    | place =>
      cases answers.of_pure
      rw [none, callees]
    | value =>
      cases answers.of_pure
      split
      · rw [calleesIn_closing _ ")" rfl, calleesIn_opening "(*" _ rfl, none, callees]
      · rw [none, callees]
  | call function arguments, quiet, text, answers => by
    simp only [code] at answers
    obtain ⟨signature, found, answers⟩ := answers.of_bind
    obtain ⟨texts, listed, answers⟩ := answers.of_bind
    obtain ⟨_, _, answers⟩ := answers.of_bind
    obtain ⟨name, spelled, answers⟩ := answers.of_bind
    cases answers.of_pure
    have counted := (Signatures.forCall_ok.mp found.of_lift).2
    rw [calleesIn_closing _ ")" rfl, calleesIn_call spelled.of_lift, calleesIn_intercalate rfl,
      argumentCodes_callees arguments (fun argument one => quiet.part (.inArgument one .self)) counted listed, callees]
  | method receiver called marked arguments, quiet, text, answers => by
    simp only [code] at answers
    obtain ⟨_, checked, answers⟩ := answers.of_bind
    obtain ⟨_, _, answers⟩ := answers.of_bind
    obtain ⟨target, written, answers⟩ := answers.of_bind
    obtain ⟨texts, listed, answers⟩ := answers.of_bind
    cases answers.of_pure
    rw [call_callees, code_callees receiver (quiet.part (.inReceiver .self)) written,
      operandCodes_callees arguments (fun operand one => quiet.part (.inOperand one .self))
        (checkCall_length checked.of_lift) listed, callees]
  | field base name, quiet, text, answers => by
    simp only [code] at answers
    obtain ⟨inner, written, answers⟩ := answers.of_bind
    obtain ⟨word, spelled, answers⟩ := answers.of_bind
    cases answers.of_pure
    rw [calleesIn_between _ "." _ rfl, calleesIn_name spelled.of_lift, List.append_nil,
      code_callees base (quiet.part (.inField .self)) written, callees]
  | index base position, quiet, text, answers => by
    simp only [code] at answers
    obtain ⟨inner, written, answers⟩ := answers.of_bind
    obtain ⟨place, positioned, answers⟩ := answers.of_bind
    cases answers.of_pure
    rw [calleesIn_closing _ ") as usize]" rfl, calleesIn_between _ "[(" _ rfl,
      code_callees base (quiet.part (.inIndexed .self)) written,
      code_callees position (quiet.part (.inPosition .self)) positioned, callees]
  | unary operator operand, quiet, text, answers => by
    simp only [code] at answers
    obtain ⟨inner, written, answers⟩ := answers.of_bind
    cases answers.of_pure
    have mute : opens operator.symbol = true := by
      cases operator <;> rfl
    rw [calleesIn_opening _ _ mute, code_callees operand (quiet.part (.inUnary .self)) written, callees]
  | chain first rest, quiet, text, answers => by
    simp only [code] at answers
    obtain ⟨inner, written, answers⟩ := answers.of_bind
    obtain ⟨later, listed, answers⟩ := answers.of_bind
    cases answers.of_pure
    obtain ⟨away, same⟩ := chainCode_callees rest (fun operand one => quiet.part (.inRest one .self)) listed
    rw [calleesIn_append away, same, code_callees first (quiet.part (.inFirst .self)) written, callees]
  | paren inner, quiet, text, answers => by
    simp only [code] at answers
    obtain ⟨enclosed, written, answers⟩ := answers.of_bind
    cases answers.of_pure
    rw [calleesIn_closing _ ")" rfl, calleesIn_opening "(" _ rfl,
      code_callees inner (quiet.part (.inParen .self)) written, callees]
  | collection items, quiet, text, answers => by
    simp only [code] at answers
    obtain ⟨texts, listed, answers⟩ := answers.of_bind
    cases answers.of_pure
    rw [calleesIn_closing _ ")" rfl, calleesIn_opening "SnVector::from(" _ rfl, vector_callees,
      ownedCodes_callees items (fun item one => quiet.part (.inItem one .self)) listed, callees]

theorem argumentCodes_callees {function : String} : (arguments : List (Accessor × Expr)) →
    (∀ argument ∈ arguments, argument.2.Quiet) → {parameters : List (String × Accessor)} → {texts : List String} →
    parameters.length = arguments.length →
    Answers (argumentCodes signatures function parameters arguments) texts →
    texts.flatMap calleesIn = argumentCallees arguments
  | [], quiet, parameters, texts, counted, answers => by
    cases List.length_eq_zero_iff.mp counted
    cases answers.of_pure
    rfl
  | (accessor, value) :: arguments, quiet, parameters, texts, counted, answers => by
    obtain ⟨parameter, parameters, rfl⟩ := List.exists_cons_of_length_eq_add_one counted
    obtain ⟨first, later⟩ := List.forall_mem_cons.mp quiet
    simp only [argumentCodes] at answers
    obtain ⟨text, passed, answers⟩ := answers.of_bind
    obtain ⟨others, listed, same⟩ := answers.of_bind
    cases same.of_pure
    rw [List.flatMap_cons, (pass_passed passed).callees fun form inner => code_callees value first,
      argumentCodes_callees arguments later (by simpa using counted) listed, argumentCallees]

theorem operandCodes_callees : (arguments : List Expr) →
    (∀ argument ∈ arguments, argument.Quiet) → {operands : List Method.Operand} → {texts : List String} →
    operands.length = arguments.length → Answers (operandCodes signatures operands arguments) texts →
    texts.flatMap calleesIn = listCallees arguments
  | [], quiet, operands, texts, counted, answers => by
    cases List.length_eq_zero_iff.mp counted
    cases answers.of_pure
    rfl
  | value :: arguments, quiet, operands, texts, counted, answers => by
    obtain ⟨operand, operands, rfl⟩ := List.exists_cons_of_length_eq_add_one counted
    obtain ⟨first, later⟩ := List.forall_mem_cons.mp quiet
    simp only [operandCodes] at answers
    obtain ⟨text, written, answers⟩ := answers.of_bind
    obtain ⟨others, listed, same⟩ := answers.of_bind
    cases same.of_pure
    rw [List.flatMap_cons, argument_callees (fun form inner => code_callees value first) written,
      operandCodes_callees arguments later (by simpa using counted) listed, listCallees]

theorem chainCode_callees : (rest : List (BinaryOp × Expr)) → (∀ operand ∈ rest, operand.2.Quiet) →
    {text : String} → Answers (chainCode signatures rest) text →
    apart text = true ∧ calleesIn text = chainCallees rest
  | [], quiet, text, answers => by
    cases answers.of_pure
    exact ⟨rfl, rfl⟩
  | (operator, operand) :: rest, quiet, text, answers => by
    obtain ⟨first, others⟩ := List.forall_mem_cons.mp quiet
    simp only [chainCode] at answers
    obtain ⟨inner, written, answers⟩ := answers.of_bind
    obtain ⟨later, listed, same⟩ := answers.of_bind
    cases same.of_pure
    obtain ⟨away, same⟩ := chainCode_callees rest others listed
    have mark : opens (" " ++ operator.symbol ++ " ") = true := by
      cases operator <;> rfl
    refine ⟨?_, ?_⟩
    · simp only [String.append_assoc]
      exact apart_append rfl rfl
    · rw [calleesIn_append away, calleesIn_opening _ _ mark, code_callees operand first written, same, chainCallees]

theorem ownedCodes_callees : (items : List Expr) → (∀ item ∈ items, item.Quiet) → {texts : List String} →
    Answers (ownedCodes signatures items) texts → texts.flatMap calleesIn = listCallees items
  | [], quiet, texts, answers => by
    cases answers.of_pure
    rfl
  | item :: items, quiet, texts, answers => by
    obtain ⟨first, later⟩ := List.forall_mem_cons.mp quiet
    simp only [ownedCodes] at answers
    obtain ⟨text, written, answers⟩ := answers.of_bind
    obtain ⟨others, listed, same⟩ := answers.of_bind
    cases same.of_pure
    rw [List.flatMap_cons, (own_owned written).callees fun form inner => code_callees item first,
      ownedCodes_callees items later listed, listCallees]

end

end Expr

end Lowering
