import Lowering.Proofs.ExprSteps
import Lowering.Proofs.StatementAnswers

/-! The expressions in a text, wherever they stand. A statement goes through only if each of them
does, all the way down, and what it is written out as stands in the text of the statement. -/

namespace Lowering

open Lowering.Action (Answers)
open Lowering.Layout (Hangs)

namespace Expr

/-- An expression is the other or stands in one of its parts, however deep. -/
inductive Part (inner : Expr) : Expr → Prop where
  | self : Part inner inner
  | inArgument {function arguments argument} (one : argument ∈ arguments) (part : Part inner argument.2) :
    Part inner (call function arguments)
  | inReceiver {receiver called marked arguments} (part : Part inner receiver) :
    Part inner (method receiver called marked arguments)
  | inOperand {receiver called marked arguments operand} (one : operand ∈ arguments) (part : Part inner operand) :
    Part inner (method receiver called marked arguments)
  | inField {base name} (part : Part inner base) : Part inner (field base name)
  | inIndexed {base position} (part : Part inner base) : Part inner (index base position)
  | inPosition {base position} (part : Part inner position) : Part inner (index base position)
  | inUnary {operator operand} (part : Part inner operand) : Part inner (unary operator operand)
  | inFirst {first rest} (part : Part inner first) : Part inner (chain first rest)
  | inRest {first rest operand} (one : operand ∈ rest) (part : Part inner operand.2) : Part inner (chain first rest)
  | inParen {enclosed} (part : Part inner enclosed) : Part inner (paren enclosed)
  | inItem {items item} (one : item ∈ items) (part : Part inner item) : Part inner (collection items)

theorem Part.trans {inner middle outer : Expr} (first : Part inner middle) (last : Part middle outer) :
    Part inner outer := by
  induction last with
  | self => exact first
  | inArgument one _ ih => exact .inArgument one ih
  | inReceiver _ ih => exact .inReceiver ih
  | inOperand one _ ih => exact .inOperand one ih
  | inField _ ih => exact .inField ih
  | inIndexed _ ih => exact .inIndexed ih
  | inPosition _ ih => exact .inPosition ih
  | inUnary _ ih => exact .inUnary ih
  | inFirst _ ih => exact .inFirst ih
  | inRest one _ ih => exact .inRest one ih
  | inParen _ ih => exact .inParen ih
  | inItem one _ ih => exact .inItem one ih

/-- The expression comes out in the text, in one of the ways of writing it. A variable may be named
without being read, and a condition that always holds may be left out. -/
inductive Stands (signatures : Signatures) (expr : Expr) (text : String) : Prop where
  | named {name} (same : expr = identifier name)
  | always (holds : expr.isTrue = true)
  | written {form piece} (answers : Answers (expr.code signatures form) piece) (hangs : Hangs piece text)
  | items {piece} (answers : Answers (expr.itemsCode signatures) piece) (hangs : Hangs piece text)

theorem Stands.trans {signatures : Signatures} {expr : Expr} {first text : String} (stands : expr.Stands signatures first)
    (hangs : Hangs first text) : expr.Stands signatures text := by
  cases stands with
  | named same => exact .named same
  | always holds => exact .always holds
  | written answers inside => exact .written answers (inside.trans hangs)
  | items answers inside => exact .items answers (inside.trans hangs)

/-- What is neither a variable nor a collection and does not always hold is written out in a form. -/
theorem Stands.of_written {signatures : Signatures} {expr : Expr} {text : String} (stands : expr.Stands signatures text)
    (unnamed : ∀ name, expr ≠ identifier name) (uncertain : expr.isTrue = false) (single : ∀ items, expr ≠ collection items) :
    ∃ form piece, Answers (expr.code signatures form) piece ∧ Hangs piece text := by
  cases stands with
  | named same => exact absurd same (unnamed _)
  | always holds => rw [uncertain] at holds; cases holds
  | written answers hangs => exact ⟨_, _, answers, hangs⟩
  | items answers _ =>
    cases expr with
    | collection items => exact absurd rfl (single items)
    | _ =>
      obtain ⟨_, _, thrown⟩ := answers
      exact (throw_ok thrown).elim

section Forms

/-! What is written of an expression for each way of using it. -/

/-- An expression that is lent: a variable that holds a reference lends what it refers to, anything else
that is stored is borrowed as a place, and a temporary value stands as it is. -/
inductive Lent (expr : Expr) (code : Form → Action String) : String → Prop where
  | referent {name word} (same : expr = identifier name) (spelled : Name.code name = .ok word) :
    Lent expr code ("&*" ++ word)
  | place {inner} (stored : expr.isStored = true) (written : Answers (code .place) inner) : Lent expr code ("&" ++ inner)
  | value {text} (temporary : expr.isStored = false) (written : Answers (code .value) text) : Lent expr code text

/-- An expression that finds a new owner. -/
inductive Owned (expr : Expr) (code : Form → Action String) : String → Prop where
  | duplicate {inner} (stored : expr.isStored = true) (written : Answers (code .value) inner) :
    Owned expr code (inner ++ ".clone()")
  | value {text} (temporary : expr.isStored = false) (written : Answers (code .value) text) : Owned expr code text

/-- An argument for a parameter, under the accessor that the call writes. -/
inductive Passed (expr : Expr) (code : Form → Action String) (expected : Accessor) : Accessor → String → Prop where
  | temporary {accessor inner} (temporary : expr.isStored = false) (written : Answers (code .value) inner) :
    Passed expr code expected accessor (handOver expected (if expr.isChain then "(" ++ inner ++ ")" else inner))
  | duplicate {inner} (stored : expr.isStored = true) (written : Answers (code .value) inner) :
    Passed expr code expected .copy (handOver expected (inner ++ ".clone()"))
  | lent {text} (stored : expr.isStored = true) (lent : Lent expr code text) : Passed expr code expected .look text
  | referent {name word} (same : expr = identifier name) (spelled : Name.code name = .ok word) :
    Passed expr code expected .mutate ("&mut *" ++ word)
  | place {inner} (stored : expr.isStored = true) (written : Answers (code .place) inner) :
    Passed expr code expected .mutate ("&mut " ++ inner)
  | moved {name word} (same : expr = identifier name) (spelled : Name.code name = .ok word) :
    Passed expr code expected .move word

variable {expr : Expr} {code : Form → Action String} {text : String}

theorem lend_lent (answers : Answers (expr.lend code) text) : Lent expr code text := by
  cases expr with
  | identifier name =>
    obtain ⟨binding, _, answers⟩ := answers.of_bind
    split at answers
    · obtain ⟨word, spelled, same⟩ := answers.of_bind
      cases same.of_pure
      exact .referent rfl spelled.of_lift
    · obtain ⟨inner, written, same⟩ := answers.of_bind
      cases same.of_pure
      exact .place rfl written
  | _ =>
    simp only [lend] at answers
    split at answers
    next stored =>
      obtain ⟨inner, written, same⟩ := answers.of_bind
      cases same.of_pure
      exact .place stored written
    next temporary => exact .value (Bool.eq_false_iff.mpr temporary) answers

theorem own_owned (answers : Answers (expr.own code) text) : Owned expr code text := by
  obtain ⟨inner, written, answers⟩ := answers.of_bind
  split at answers
  next stored =>
    cases answers.of_pure
    exact .duplicate stored written
  next temporary =>
    cases answers.of_pure
    exact .value (Bool.eq_false_iff.mpr temporary) written

private theorem passStored_passed {function root : String} {parameter : String × Accessor} {accessor : Accessor}
    (rooted : expr.root? = some root) (answers : Answers (expr.passStored function parameter accessor root code) text) :
    Passed expr code parameter.2 accessor text := by
  have stored : expr.isStored = true := by rw [isStored, rooted, Option.isSome_some]
  cases expr with
  | identifier name =>
    have same : root = name := (Option.some.inj rooted).symm
    subst same
    obtain ⟨refers, _, answers⟩ := answers.of_bind
    cases accessor with
    | copy =>
      obtain ⟨inner, written, same⟩ := answers.of_bind
      cases same.of_pure
      exact .duplicate stored written
    | look => exact .lent stored (lend_lent answers)
    | mutate =>
      simp only at answers
      split at answers
      · obtain ⟨word, spelled, same⟩ := answers.of_bind
        cases same.of_pure
        exact .referent rfl spelled.of_lift
      · obtain ⟨inner, written, same⟩ := answers.of_bind
        cases same.of_pure
        exact .place stored written
    | move => exact .moved rfl answers.of_lift
  | _ =>
    simp only [passStored, pure_bind] at answers
    cases accessor with
    | copy =>
      obtain ⟨inner, written, same⟩ := answers.of_bind
      cases same.of_pure
      exact .duplicate stored written
    | look => exact .lent stored (lend_lent answers)
    | mutate =>
      obtain ⟨inner, written, same⟩ := answers.of_bind
      cases same.of_pure
      exact .place stored written
    | move =>
      obtain ⟨_, _, thrown⟩ := answers
      exact (throw_ok thrown).elim

theorem pass_passed {function : String} {parameter : String × Accessor} {accessor : Accessor}
    (answers : Answers (expr.pass function parameter accessor code) text) :
    Passed expr code parameter.2 accessor text := by
  unfold pass at answers
  split at answers
  next temporary =>
    obtain ⟨inner, written, same⟩ := answers.of_bind
    cases same.of_pure
    exact .temporary (by rw [isStored, temporary, Option.isSome_none]) written
  next root rooted =>
    split at answers
    · obtain ⟨_, ⟨_, _, thrown⟩, _⟩ := answers.of_bind
      exact (throw_ok thrown).elim
    · obtain ⟨inner, passed, answers⟩ := answers.of_bind
      obtain ⟨_, _, same⟩ := answers.of_bind
      cases same.of_pure
      exact passStored_passed rooted passed

/-- An argument of a method is a position in its own parentheses, or it finds a new owner. -/
theorem argument_given {operand : Method.Operand} (answers : Answers (Method.argument operand expr code) text) :
    (∃ inner, Answers (code .value) inner ∧ text = "(" ++ inner ++ ") as usize") ∨ Owned expr code text := by
  cases operand with
  | position =>
    obtain ⟨inner, written, same⟩ := answers.of_bind
    exact .inl ⟨inner, written, same.of_pure.symm⟩
  | element => exact .inr (own_owned answers)

end Forms

section Placed

variable {expr : Expr} {signatures : Signatures} {text : String}

theorem Lent.stands (lent : Lent expr (fun form => expr.code signatures form) text) : expr.Stands signatures text := by
  cases lent with
  | referent same _ => exact .named same
  | place _ written => exact .written written ((Hangs.refl _).behind _)
  | value _ written => exact .written written (.refl _)

theorem Owned.stands (owned : Owned expr (fun form => expr.code signatures form) text) : expr.Stands signatures text := by
  cases owned with
  | duplicate _ written => exact .written written ((Hangs.refl _).before _)
  | value _ written => exact .written written (.refl _)

theorem handOver_hangs {piece value : String} (expected : Accessor) (hangs : Hangs piece value) :
    Hangs piece (handOver expected value) := by
  cases expected with
  | look | mutate => exact hangs.behind _
  | move | copy => exact hangs

theorem Passed.stands {expected accessor : Accessor}
    (passed : Passed expr (fun form => expr.code signatures form) expected accessor text) : expr.Stands signatures text := by
  cases passed with
  | referent same _ | moved same _ => exact .named same
  | temporary _ written =>
    refine .written written (handOver_hangs expected ?_)
    split
    · exact ((Hangs.refl _).behind _).before _
    · exact .refl _
  | duplicate _ written => exact .written written (handOver_hangs expected ((Hangs.refl _).before _))
  | place _ written => exact .written written ((Hangs.refl _).behind _)
  | lent _ lent => exact lent.stands

theorem argument_stands {operand : Method.Operand}
    (answers : Answers (Method.argument operand expr fun form => expr.code signatures form) text) :
    expr.Stands signatures text := by
  obtain ⟨inner, written, rfl⟩ | owned := argument_given answers
  · exact .written written (((Hangs.refl _).behind _).before _)
  · exact owned.stands

end Placed

section Lists

variable {signatures : Signatures} {texts : List String}

theorem argumentCodes_each {function : String} {parameters : List (String × Accessor)}
    {arguments : List (Accessor × Expr)} (answers : Answers (argumentCodes signatures function parameters arguments) texts) :
    List.Forall₂ (fun entry text =>
      Answers (entry.2.2.pass function entry.1 entry.2.1 fun form => entry.2.2.code signatures form) text)
      (parameters.zip arguments) texts := by
  induction parameters generalizing arguments texts with
  | nil =>
    simp only [argumentCodes] at answers
    cases answers.of_pure
    exact .nil
  | cons parameter parameters ih =>
    cases arguments with
    | nil =>
      simp only [argumentCodes] at answers
      cases answers.of_pure
      exact .nil
    | cons argument arguments =>
      simp only [argumentCodes] at answers
      obtain ⟨_, passed, answers⟩ := answers.of_bind
      obtain ⟨_, later, same⟩ := answers.of_bind
      cases same.of_pure
      exact .cons passed (ih later)

theorem operandCodes_each {operands : List Method.Operand} {arguments : List Expr}
    (answers : Answers (operandCodes signatures operands arguments) texts) :
    List.Forall₂ (fun entry text =>
      Answers (Method.argument entry.1 entry.2 fun form => entry.2.code signatures form) text)
      (operands.zip arguments) texts := by
  induction operands generalizing arguments texts with
  | nil =>
    simp only [operandCodes] at answers
    cases answers.of_pure
    exact .nil
  | cons operand operands ih =>
    cases arguments with
    | nil =>
      simp only [operandCodes] at answers
      cases answers.of_pure
      exact .nil
    | cons argument arguments =>
      simp only [operandCodes] at answers
      obtain ⟨_, written, answers⟩ := answers.of_bind
      obtain ⟨_, later, same⟩ := answers.of_bind
      cases same.of_pure
      exact .cons written (ih later)

theorem ownedCodes_each {items : List Expr} (answers : Answers (ownedCodes signatures items) texts) :
    List.Forall₂ (fun item text => Answers (item.ownedCode signatures) text) items texts := by
  induction items generalizing texts with
  | nil =>
    simp only [ownedCodes] at answers
    cases answers.of_pure
    exact .nil
  | cons item items ih =>
    simp only [ownedCodes] at answers
    obtain ⟨_, written, answers⟩ := answers.of_bind
    obtain ⟨_, later, same⟩ := answers.of_bind
    cases same.of_pure
    exact .cons written (ih later)

theorem chainCode_each {rest : List (BinaryOp × Expr)} {text : String} (answers : Answers (chainCode signatures rest) text) :
    ∀ operand ∈ rest, operand.2.Stands signatures text := by
  induction rest generalizing text with
  | nil => nofun
  | cons operand rest ih =>
    simp only [chainCode] at answers
    obtain ⟨_, written, answers⟩ := answers.of_bind
    obtain ⟨_, later, same⟩ := answers.of_bind
    cases same.of_pure
    refine List.forall_mem_cons.mpr ⟨.written written (((Hangs.refl _).behind _).before _), ?_⟩
    exact fun other member => (ih later other member).trans ((Hangs.refl _).behind _)

end Lists

section Uses

variable {signatures : Signatures} {form : Form} {text : String}

/-- Each argument of a call is written out for its parameter. -/
theorem call_each {function : String} {arguments : List (Accessor × Expr)}
    (stands : (call function arguments).Stands signatures text) :
    ∃ signature, signatures.get? function = some signature ∧ signature.parameters.length = arguments.length ∧
      ∀ entry ∈ signature.parameters.zip arguments, ∃ piece, Hangs piece text ∧
        Answers (entry.2.2.pass function entry.1 entry.2.1 fun form => entry.2.2.code signatures form) piece := by
  obtain ⟨_, _, answers, hangs⟩ := stands.of_written nofun rfl nofun
  simp only [code] at answers
  obtain ⟨signature, found, answers⟩ := answers.of_bind
  obtain ⟨texts, listed, answers⟩ := answers.of_bind
  obtain ⟨_, _, answers⟩ := answers.of_bind
  obtain ⟨_, _, same⟩ := answers.of_bind
  cases same.of_pure
  obtain ⟨known, counted⟩ := Signatures.forCall_ok.mp found.of_lift
  refine ⟨signature, known, counted, fun entry member => ?_⟩
  obtain ⟨piece, among, passed⟩ := exists_of_forall₂ (argumentCodes_each listed) member
  exact ⟨piece, ((((Hangs.refl piece).among ", " among).behind _).before _).trans hangs, passed⟩

/-- So is each argument of a method, for its purpose. -/
theorem method_each {receiver : Expr} {called : Method} {marked : Bool} {arguments : List Expr}
    (stands : (method receiver called marked arguments).Stands signatures text) :
    receiver.Stands signatures text ∧ called.operands.length = arguments.length ∧
      ∀ entry ∈ called.operands.zip arguments, ∃ piece, Hangs piece text ∧
        Answers (Method.argument entry.1 entry.2 fun form => entry.2.code signatures form) piece := by
  obtain ⟨_, _, answers, hangs⟩ := stands.of_written nofun rfl nofun
  simp only [code] at answers
  obtain ⟨_, checked, answers⟩ := answers.of_bind
  obtain ⟨_, _, answers⟩ := answers.of_bind
  obtain ⟨target, received, answers⟩ := answers.of_bind
  obtain ⟨texts, listed, same⟩ := answers.of_bind
  cases same.of_pure
  have inside : ∀ piece, Hangs piece (target ++ "." ++ called.name ++ "(" ++ ", ".intercalate texts ++ ")") →
      Hangs piece text := by
    intro piece inside
    refine Hangs.trans ?_ hangs
    unfold Method.call
    split
    · exact (inside.behind _).before _
    · exact inside
  refine ⟨.written received (inside _ ?_), checkCall_length checked.of_lift, fun entry member => ?_⟩
  · exact ((((Hangs.refl _).before _).before _).before _).before _ |>.before _
  · obtain ⟨piece, among, written⟩ := exists_of_forall₂ (operandCodes_each listed) member
    exact ⟨piece, inside _ ((((Hangs.refl piece).among ", " among).behind _).before _), written⟩

/-- And each item of a collection, with the container or without it. -/
theorem collection_each {items : List Expr} (stands : (collection items).Stands signatures text) :
    ∀ item ∈ items, ∃ piece, Hangs piece text ∧ Answers (item.ownedCode signatures) piece := by
  obtain ⟨texts, listed, hangs⟩ : ∃ texts, Answers (ownedCodes signatures items) texts ∧ Hangs (vector texts) text := by
    cases stands with
    | named same => cases same
    | always holds => cases holds
    | written answers hangs =>
      simp only [code] at answers
      obtain ⟨texts, listed, same⟩ := answers.of_bind
      cases same.of_pure
      exact ⟨texts, listed, (((Hangs.refl _).behind _).before _).trans hangs⟩
    | items answers hangs =>
      simp only [itemsCode] at answers
      obtain ⟨texts, listed, same⟩ := answers.of_bind
      cases same.of_pure
      exact ⟨texts, listed, hangs⟩
  intro item member
  obtain ⟨piece, among, owned⟩ := exists_of_forall₂ (ownedCodes_each listed) member
  exact ⟨piece, ((((Hangs.refl piece).among ", " among).behind _).before _).trans hangs, owned⟩

end Uses

private theorem exists_mem_zip {first : List α} {last : List β} {entry : β} (counted : first.length = last.length)
    (member : entry ∈ last) : ∃ other, (other, entry) ∈ first.zip last := by
  obtain ⟨position, small, rfl⟩ := List.mem_iff_getElem.mp member
  exact ⟨first[position], List.mem_iff_getElem.mpr ⟨position, by simp [counted, small], by simp⟩⟩

/-- An expression comes out only if everything within it does. -/
theorem Part.stands {signatures : Signatures} {inner outer : Expr} {text : String} (part : Part inner outer)
    (stands : outer.Stands signatures text) : inner.Stands signatures text := by
  induction part with
  | self => exact stands
  | inArgument one _ ih =>
    obtain ⟨_, _, counted, each⟩ := call_each stands
    obtain ⟨_, paired⟩ := exists_mem_zip counted one
    obtain ⟨_, hangs, passed⟩ := each _ paired
    exact ih ((pass_passed passed).stands.trans hangs)
  | inReceiver _ ih => exact ih (method_each stands).1
  | inOperand one _ ih =>
    obtain ⟨_, counted, each⟩ := method_each stands
    obtain ⟨_, paired⟩ := exists_mem_zip counted one
    obtain ⟨_, hangs, written⟩ := each _ paired
    exact ih ((argument_stands written).trans hangs)
  | inItem one _ ih =>
    obtain ⟨_, hangs, owned⟩ := collection_each stands _ one
    exact ih ((own_owned owned).stands.trans hangs)
  | inField _ ih =>
    obtain ⟨_, _, answers, hangs⟩ := stands.of_written nofun rfl nofun
    simp only [code] at answers
    obtain ⟨_, base, answers⟩ := answers.of_bind
    obtain ⟨_, _, same⟩ := answers.of_bind
    cases same.of_pure
    exact ih (.written base ((((Hangs.refl _).before _).before _).trans hangs))
  | inIndexed _ ih =>
    obtain ⟨_, _, answers, hangs⟩ := stands.of_written nofun rfl nofun
    simp only [code] at answers
    obtain ⟨_, base, answers⟩ := answers.of_bind
    obtain ⟨_, _, same⟩ := answers.of_bind
    cases same.of_pure
    exact ih (.written base (((((Hangs.refl _).before _).before _).before _).trans hangs))
  | inPosition _ ih =>
    obtain ⟨_, _, answers, hangs⟩ := stands.of_written nofun rfl nofun
    simp only [code] at answers
    obtain ⟨_, _, answers⟩ := answers.of_bind
    obtain ⟨_, position, same⟩ := answers.of_bind
    cases same.of_pure
    exact ih (.written position ((((Hangs.refl _).behind _).before _).trans hangs))
  | inUnary _ ih =>
    obtain ⟨_, _, answers, hangs⟩ := stands.of_written nofun rfl nofun
    simp only [code] at answers
    obtain ⟨_, operand, same⟩ := answers.of_bind
    cases same.of_pure
    exact ih (.written operand (((Hangs.refl _).behind _).trans hangs))
  | inFirst _ ih =>
    obtain ⟨_, _, answers, hangs⟩ := stands.of_written nofun rfl nofun
    simp only [code] at answers
    obtain ⟨_, first, answers⟩ := answers.of_bind
    obtain ⟨_, _, same⟩ := answers.of_bind
    cases same.of_pure
    exact ih (.written first (((Hangs.refl _).before _).trans hangs))
  | inRest one _ ih =>
    obtain ⟨_, _, answers, hangs⟩ := stands.of_written nofun rfl nofun
    simp only [code] at answers
    obtain ⟨_, _, answers⟩ := answers.of_bind
    obtain ⟨_, listed, same⟩ := answers.of_bind
    cases same.of_pure
    exact ih ((chainCode_each listed _ one).trans (((Hangs.refl _).behind _).trans hangs))
  | inParen _ ih =>
    cases stands with
    | named same => cases same
    | always holds => exact ih (.always holds)
    | written answers hangs =>
      simp only [code] at answers
      obtain ⟨_, enclosed, same⟩ := answers.of_bind
      cases same.of_pure
      exact ih (.written enclosed ((((Hangs.refl _).behind _).before _).trans hangs))
    | items answers _ =>
      obtain ⟨_, _, thrown⟩ := answers
      exact (throw_ok thrown).elim

end Expr

namespace Range

def expressions : Range → List Expr
  | bounds first last => [first, last]
  | each collection => [collection]

end Range

namespace Statement

/-- The expressions that stand in a statement itself, and in none of its bodies. -/
def expressions : Statement → List Expr
  | print values => values
  | binding _ _ _ value => [value]
  | set target _ value => [target, value]
  | run term => [term]
  | returning value => value.toList
  | breaking | continuing => []
  | whileLoop condition _ => [condition]
  | forLoop _ range _ => range.expressions
  | ifBlock branches _ => branches.map Prod.fst
  | matchBlock subject arms _ => subject :: arms.flatMap Prod.fst

variable {context : BodyContext}

section Plain

variable {value : Expr} {text : String}

/-- The value of a new variable finds its owner, or it is a collection that becomes a container of the
declared type. -/
theorem bindingCode_answers {mutable : Bool} {name : String} {type : Option Tree}
    (answers : Answers (bindingCode context mutable name type value) text) :
    (∃ piece, Hangs piece text ∧ Answers (value.ownedCode context.signatures) piece) ∨
      ∃ items piece, value = .collection items ∧ Hangs piece text ∧ Answers (value.itemsCode context.signatures) piece := by
  simp only [bindingCode] at answers
  split at answers
  next items tree =>
    obtain ⟨_, mapped, answers⟩ := answers.of_bind
    obtain ⟨_, _, answers⟩ := answers.of_bind
    obtain ⟨_, _, answers⟩ := answers.of_bind
    obtain ⟨_, _, same⟩ := answers.of_bind
    cases same.of_pure
    obtain ⟨piece, listed, rfl⟩ := mapped.of_map
    exact .inr ⟨items, piece, rfl, (((Hangs.refl piece).before _).behind _).before _, listed⟩
  next =>
    obtain ⟨piece, owned, answers⟩ := answers.of_bind
    obtain ⟨_, _, answers⟩ := answers.of_bind
    refine .inl ⟨piece, ?_, owned⟩
    split at answers
    all_goals
      obtain ⟨_, _, answers⟩ := answers.of_bind
      obtain ⟨_, _, same⟩ := answers.of_bind
      cases same.of_pure
      exact ((Hangs.refl piece).behind _).before _

theorem setCode_answers {target : Expr} {operator : AssignOp}
    (answers : Answers (setCode context target operator value) text) :
    target.Stands context.signatures text ∧
      ∃ piece, Hangs piece text ∧ Answers (value.ownedCode context.signatures) piece := by
  unfold setCode at answers
  split at answers
  next =>
    obtain ⟨_, _, thrown⟩ := answers
    exact (throw_ok thrown).elim
  next =>
    obtain ⟨_, _, answers⟩ := answers.of_bind
    obtain ⟨piece, owned, answers⟩ := answers.of_bind
    split at answers
    next name _ =>
      obtain ⟨_, _, same⟩ := answers.of_bind
      cases same.of_pure
      exact ⟨.named rfl, piece, ((Hangs.refl piece).behind _).before _, owned⟩
    next =>
      obtain ⟨place, targeted, same⟩ := answers.of_bind
      cases same.of_pure
      have first : Hangs place (place ++ " " ++ operator.symbol) := ((Hangs.refl place).before _).before _
      exact ⟨.written targeted (((first.before _).before _).before _), piece, ((Hangs.refl piece).behind _).before _, owned⟩

theorem returningCode_answers (answers : Answers (returningCode context (some value)) text) :
    ∃ piece, Hangs piece text ∧ Answers (value.ownedCode context.signatures) piece := by
  unfold returningCode at answers
  split at answers
  next same _ =>
    cases same
    obtain ⟨piece, owned, same⟩ := answers.of_bind
    cases same.of_pure
    exact ⟨piece, ((Hangs.refl piece).behind _).before _, owned⟩
  next same _ => cases same
  next =>
    obtain ⟨_, _, thrown⟩ := answers
    exact (throw_ok thrown).elim
  next same _ => cases same

theorem run_answers {written : StatementCode} (answers : Answers (code context (run value)) written) :
    ∃ piece, Hangs piece written.text ∧ Answers (value.code context.signatures .value) piece := by
  simp only [code] at answers
  obtain ⟨piece, called, same⟩ := answers.of_bind
  cases same.of_pure
  exact ⟨piece, (Hangs.refl piece).before _, called⟩

theorem printCode_answers {values : List Expr} (answers : Answers (printCode context values) text) :
    ∀ value ∈ values, ∃ piece, Hangs piece text ∧ Answers (value.lentCode context.signatures) piece := by
  obtain ⟨texts, listed, same⟩ := answers.of_bind
  rw [← same.of_pure]
  intro value member
  obtain ⟨piece, among, lent⟩ := exists_of_forall₂ listed.of_mapM_each member
  have written : Hangs piece (".write(" ++ piece ++ ")") := ((Hangs.refl piece).behind _).before _
  have joined := written.joined (List.mem_map.mpr ⟨piece, among, rfl⟩ : _ ∈ texts.map fun text => ".write(" ++ text ++ ")")
  exact ⟨piece, (joined.behind _).before _, lent⟩

end Plain

section Blocks

theorem rangeCode_stands {range : Range} {header : String × Bool} (answers : Answers (rangeCode context range) header) :
    ∀ expr ∈ range.expressions, expr.Stands context.signatures header.1 := by
  cases range with
  | bounds first last =>
    obtain ⟨_, begun, answers⟩ := answers.of_bind
    obtain ⟨_, ended, same⟩ := answers.of_bind
    cases same.of_pure
    refine List.forall_mem_cons.mpr ⟨.written begun ?_, List.forall_mem_singleton.mpr (.written ended ?_)⟩
    · exact ((((Hangs.refl _).behind _).before _).before _).before _
    · exact ((Hangs.refl _).behind _).before _
  | each collection =>
    simp only [rangeCode] at answers
    refine List.forall_mem_singleton.mpr ?_
    split at answers
    next =>
      obtain ⟨_, written, same⟩ := answers.of_bind
      cases same.of_pure
      exact .written written ((Hangs.refl _).before _)
    next =>
      obtain ⟨_, written, same⟩ := answers.of_bind
      cases same.of_pure
      exact .written written (((Hangs.refl _).behind _).before _)

theorem subjectCode_stands {subject : Expr} {text : String} (answers : Answers (subjectCode context subject) text) :
    subject.Stands context.signatures text := by
  unfold subjectCode at answers
  split at answers
  · exact (Expr.lend_lent answers).stands
  · obtain ⟨_, written, same⟩ := answers.of_bind
    cases same.of_pure
    exact .written written (((Hangs.refl _).behind _).before _)

theorem testCode_stands {value : Expr} {text : String} (answers : Answers (testCode context value) text) :
    value.Stands context.signatures text := by
  obtain ⟨piece, written, same⟩ := answers.of_bind
  cases same.of_pure
  refine .written written (Hangs.behind _ ?_)
  split
  · exact ((Hangs.refl _).behind _).before _
  · exact .refl _

theorem branchCodes_stand {branches : List (Expr × List Statement)} {choice : ChoiceCode}
    (answers : Answers (branchCodes context branches) choice) :
    ∀ branch ∈ branches, ∃ text ∈ choice.texts, branch.1.Stands context.signatures text := by
  induction branches generalizing choice with
  | nil => nofun
  | cons branch rest ih =>
    simp only [branchCodes] at answers
    obtain ⟨_, tested, answers⟩ := answers.of_bind
    obtain ⟨_, _, answers⟩ := answers.of_bind
    obtain ⟨_, later, same⟩ := answers.of_bind
    cases same.of_pure
    refine List.forall_mem_cons.mpr ⟨⟨_, List.mem_cons_self, .written tested ?_⟩, fun other member => ?_⟩
    · exact (((Hangs.refl _).behind _).before _).before _
    · obtain ⟨text, among, stands⟩ := ih later other member
      exact ⟨text, List.mem_cons_of_mem _ among, stands⟩

theorem armCodes_stand {arms : List (List Expr × List Statement)} {choice : ChoiceCode}
    (answers : Answers (armCodes context arms) choice) :
    ∀ arm ∈ arms, ∃ text ∈ choice.texts, ∀ value ∈ arm.1, value.Stands context.signatures text := by
  induction arms generalizing choice with
  | nil => nofun
  | cons arm rest ih =>
    simp only [armCodes] at answers
    obtain ⟨tests, tested, answers⟩ := answers.of_bind
    obtain ⟨_, _, answers⟩ := answers.of_bind
    obtain ⟨_, later, same⟩ := answers.of_bind
    cases same.of_pure
    refine List.forall_mem_cons.mpr ⟨⟨_, List.mem_cons_self, fun value member => ?_⟩, fun other member => ?_⟩
    · obtain ⟨test, among, written⟩ := exists_of_forall₂ tested.of_mapM_each member
      have stands : Hangs test (" || ".intercalate tests) := (Hangs.refl _).among _ among
      exact (testCode_stands written).trans (((stands.behind _).before _).before _)
    · obtain ⟨text, among, stands⟩ := ih later other member
      exact ⟨text, List.mem_cons_of_mem _ among, stands⟩

end Blocks

/-- The expressions in a statement come out in its text. -/
theorem expressions_stand {statement : Statement} {written : StatementCode}
    (answers : Answers (statement.code context) written) :
    ∀ expr ∈ statement.expressions, expr.Stands context.signatures written.text := by
  cases statement with
  | ifBlock branches otherwise =>
    obtain ⟨_, default, chosen, _, same, _⟩ := ifBlock_answers answers
    refine List.forall_mem_map.mpr fun branch member => ?_
    obtain ⟨text, among, stands⟩ := branchCodes_stand chosen branch member
    exact stands.trans (same ▸ hangs_close default among)
  | matchBlock subject arms otherwise =>
    obtain ⟨_, _, default, subjected, chosen, _, lent, placed, _⟩ := matchBlock_answers answers
    refine List.forall_mem_cons.mpr ⟨(subjectCode_stands subjected).trans lent, fun value member => ?_⟩
    obtain ⟨arm, one, inArm⟩ := List.mem_flatMap.mp member
    obtain ⟨text, among, stands⟩ := armCodes_stand chosen arm one
    exact (stands value inArm).trans ((hangs_close default among).trans placed)
  | whileLoop condition body =>
    simp only [code] at answers
    obtain ⟨⟨test, block⟩, looped, answers⟩ := answers.of_bind
    obtain ⟨_, tested, looped⟩ := looped.of_between.of_bind
    obtain ⟨_, _, same⟩ := looped.of_bind
    cases same.of_pure
    refine List.forall_mem_singleton.mpr ?_
    split at answers
    next holds => exact .always holds
    next =>
      cases answers.of_pure
      exact .written tested (((((Hangs.refl test).behind _).before _).before _).before _)
  | forLoop name range body =>
    simp only [code] at answers
    obtain ⟨⟨header, _⟩, ranged, answers⟩ := answers.of_bind
    obtain ⟨_, _, answers⟩ := answers.of_bind
    obtain ⟨_, _, answers⟩ := answers.of_bind
    obtain ⟨_, _, same⟩ := answers.of_bind
    cases same.of_pure
    intro expr member
    exact (rangeCode_stands ranged expr member).trans (((((Hangs.refl header).behind _).before _).before _).before _)
  | breaking | continuing => nofun
  | print values =>
    simp only [code] at answers
    obtain ⟨_, printed, same⟩ := answers.of_bind
    cases same.of_pure
    intro value member
    obtain ⟨_, hangs, lent⟩ := printCode_answers printed value member
    exact (Expr.lend_lent lent).stands.trans hangs
  | binding mutable name type value =>
    simp only [code] at answers
    obtain ⟨_, declared, same⟩ := answers.of_bind
    cases same.of_pure
    refine List.forall_mem_singleton.mpr ?_
    obtain ⟨_, hangs, owned⟩ | ⟨_, _, _, hangs, listed⟩ := bindingCode_answers declared
    · exact (Expr.own_owned owned).stands.trans hangs
    · exact .items listed hangs
  | set target operator value =>
    simp only [code] at answers
    obtain ⟨_, assigned, same⟩ := answers.of_bind
    cases same.of_pure
    obtain ⟨stands, _, hangs, owned⟩ := setCode_answers assigned
    exact List.forall_mem_cons.mpr ⟨stands, List.forall_mem_singleton.mpr ((Expr.own_owned owned).stands.trans hangs)⟩
  | run term =>
    obtain ⟨_, hangs, called⟩ := run_answers answers
    exact List.forall_mem_singleton.mpr (.written called hangs)
  | returning value =>
    simp only [code] at answers
    obtain ⟨_, returned, same⟩ := answers.of_bind
    cases same.of_pure
    cases value with
    | none => nofun
    | some value =>
      obtain ⟨_, hangs, owned⟩ := returningCode_answers returned
      exact List.forall_mem_singleton.mpr ((Expr.own_owned owned).stands.trans hangs)

end Statement
end Lowering
