import Lowering.Expr.Code
import Lowering.Proofs.ActionSteps
import Lowering.Proofs.Signatures

/-! The uses of variables in an expression, in the order in which they are checked while it is
written out. Writing an expression out does nothing else to the scope, and the text depends on
nothing else than the declarations in it and the accessors of the functions called. -/

namespace Lowering

namespace Method

/-- The methods that put something into their receiver or take something out of it. -/
def changing : List Method :=
  [append, insert, delete, pop]

theorem mutates_iff {called : Method} : called.mutates = true ↔ called ∈ changing := by
  cases called <;> decide

end Method

namespace Expr

mutual

/-- The uses of variables in an expression, each after those within it. The root of a receiver
is checked before the receiver, and the root of an argument after the argument. -/
def uses : Expr → List Use
  | literal _ => []
  | identifier name => [.read name]
  | call _ arguments => argumentUses arguments
  | method receiver called _ arguments =>
    (if called ∈ Method.changing then receiver.root?.toList.map .change else [])
      ++ (uses receiver ++ listUses arguments)
  | field base _ => uses base
  | index base position => uses base ++ uses position
  | unary _ operand => uses operand
  | chain first rest => uses first ++ chainUses rest
  | paren inner => uses inner
  | collection items => listUses items

def argumentUses : List (Accessor × Expr) → List Use
  | [] => []
  | (accessor, value) :: rest =>
    uses value ++ value.root?.toList.map (.pass · accessor) ++ argumentUses rest

def listUses : List Expr → List Use
  | [] => []
  | expr :: rest => uses expr ++ listUses rest

def chainUses : List (BinaryOp × Expr) → List Use
  | [] => []
  | (_, operand) :: rest => uses operand ++ chainUses rest

end

theorem listUses_eq (exprs : List Expr) : listUses exprs = exprs.flatMap uses := by
  induction exprs with
  | nil => rfl
  | cons expr rest ih => rw [listUses, List.flatMap_cons, ih]

def steps (expr : Expr) : List Step :=
  expr.uses.map .use

/-- What names storage turns to its root first. -/
theorem uses_root {expr : Expr} {root : String} (rooted : expr.root? = some root) :
    ∃ rest, expr.uses = .read root :: rest := by
  induction expr using root?.induct with
  | case1 name =>
    cases rooted
    exact ⟨[], rfl⟩
  | case2 base name ih => exact ih rooted
  | case3 base position ih =>
    obtain ⟨rest, same⟩ := ih rooted
    exact ⟨rest ++ position.uses, by rw [uses, same, List.cons_append]⟩
  | case4 inner ih => exact ih rooted
  | case5 expr _ _ _ _ => simp_all [root?]

open Lowering.Action (Performs Repeats)

section Forms

variable {expr : Expr} {code code' : Form → Action String}

theorem lend_repeats (repeats : ∀ form, Repeats (code form) (code' form) expr.steps) :
    Repeats (expr.lend code) (expr.lend code') expr.steps := by
  cases expr with
  | identifier name =>
    refine .read_first fun binding => ?_
    split
    · exact .inl (.bind_first (.lift _) fun _ => .pure _)
    · exact .inr ((repeats .place).bind_last fun _ => .pure _)
  | _ =>
    simp only [lend]
    split
    · exact (repeats .place).bind_last fun _ => .pure _
    · exact repeats .value

theorem own_repeats (repeats : ∀ form, Repeats (code form) (code' form) expr.steps) :
    Repeats (expr.own code) (expr.own code') expr.steps := by
  refine (repeats .value).bind_last fun _ => ?_
  split <;> exact .pure _

/-- An argument that names storage is written out like a plain use of it, whatever its
accessor. A move only names the variable, which has been read by then. -/
theorem passStored_repeats {function root : String} {parameter parameter' : String × Accessor}
    {accessor : Accessor} (same : parameter'.2 = parameter.2)
    (repeats : ∀ form, Repeats (code form) (code' form) expr.steps) :
    Repeats (expr.passStored function parameter accessor root code)
      (expr.passStored function parameter' accessor root code') expr.steps := by
  cases expr with
  | identifier name =>
    simp only [passStored, bind_map_left, same]
    refine .read_first fun binding => ?_
    cases accessor with
    | copy => exact .inr ((repeats .value).bind_last fun _ => .pure _)
    | look => exact .inr (lend_repeats repeats)
    | mutate =>
      simp only
      split
      · exact .inl (.bind_first (.lift _) fun _ => .pure _)
      · exact .inr ((repeats .place).bind_last fun _ => .pure _)
    | move => exact .inl (.lift _)
  | _ =>
    simp only [passStored, pure_bind, same]
    cases accessor with
    | copy => exact (repeats .value).bind_last fun _ => .pure _
    | look => exact lend_repeats repeats
    | mutate => exact (repeats .place).bind_last fun _ => .pure _
    | move => exact .throw _

theorem pass_repeats {function : String} {parameter parameter' : String × Accessor} {accessor : Accessor}
    (same : parameter'.2 = parameter.2) (repeats : ∀ form, Repeats (code form) (code' form) expr.steps) :
    Repeats (expr.pass function parameter accessor code) (expr.pass function parameter' accessor code')
      (expr.steps ++ expr.root?.toList.map fun root => .use (.pass root accessor)) := by
  unfold pass
  rw [same]
  split
  next rootless =>
    rw [rootless, Option.toList_none, List.map_nil, List.append_nil]
    exact (repeats .value).bind_last fun _ => .pure _
  next root rooted =>
    rw [rooted, Option.toList_some, List.map_singleton]
    split
    · exact .throw _
    · refine (passStored_repeats same repeats).bind fun _ => ?_
      exact (Repeats.pass root accessor).bind_last fun _ => .pure _

end Forms

theorem checkCall_length {called : Method} {marked : Bool} {arguments : Nat}
    (checked : called.checkCall marked arguments = .ok ()) : called.operands.length = arguments := by
  unfold Method.checkCall at checked
  split at checked
  next => cases checked
  next counted => exact (Decidable.not_not.mp counted).symm

theorem checkReceiver_repeats (called : Method) (receiver : Expr) :
    Repeats (called.checkReceiver receiver) (called.checkReceiver receiver)
      ((if called ∈ Method.changing then receiver.root?.toList.map .change else []).map .use) := by
  simp only [Method.checkReceiver, Method.mutates_iff]
  split
  · split
    next => exact .throw _
    next root rooted =>
      rw [rooted]
      exact (Repeats.writable (.inr rfl)).bind_last fun _ => .pure _
  · exact .pure _

theorem argument_repeats {operand : Method.Operand} {expr : Expr} {code code' : Form → Action String}
    (repeats : ∀ form, Repeats (code form) (code' form) expr.steps) :
    Repeats (Method.argument operand expr code) (Method.argument operand expr code') expr.steps := by
  cases operand with
  | position => exact (repeats .value).bind_last fun _ => .pure _
  | element => exact own_repeats repeats

section Tables

variable {signatures other : Signatures}

mutual

/-- Writing an expression out takes the scope through the expression's uses, and gives the same
text again wherever these go through. -/
theorem code_repeats (carried : signatures.CarriedBy other) (form : Form) : (expr : Expr) →
    Repeats (expr.code signatures form) (expr.code other form) expr.steps
  | literal value => .lift _
  | identifier name => by
    simp only [code]
    refine (Repeats.readable name).bind_last fun binding => .bind_first (.lift _) fun _ => ?_
    cases form <;> exact .pure _
  | call function arguments => by
    simp only [code]
    refine .lift_first fun signature found => ?_
    have counted := (Signatures.forCall_ok.mp found).2
    obtain ⟨held, found', same⟩ := carried.forCall found
    refine ⟨held, found', (argumentCodes_repeats carried function _ _ arguments counted same).bind_last fun _ => ?_⟩
    exact .bind_first (.note _) fun _ => .bind_first (.lift _) fun _ => .pure _
  | method receiver called marked arguments => by
    simp only [code, steps, uses, List.map_append]
    refine .lift_first fun value checked => ⟨value, checked, ?_⟩
    have counted := checkCall_length checked
    refine (checkReceiver_repeats called receiver).bind fun _ => ?_
    refine (code_repeats carried .place receiver).bind fun _ => ?_
    exact (operandCodes_repeats carried called.operands arguments counted).bind_last fun _ => .pure _
  | field base name => by
    simp only [code]
    exact (code_repeats carried .place base).bind_last fun _ => .bind_first (.lift _) fun _ => .pure _
  | index base position => by
    simp only [code, steps, uses, List.map_append]
    refine (code_repeats carried .place base).bind fun _ => ?_
    exact (code_repeats carried .value position).bind_last fun _ => .pure _
  | unary operator operand => by
    simp only [code]
    exact (code_repeats carried .value operand).bind_last fun _ => .pure _
  | chain first rest => by
    simp only [code, steps, uses, List.map_append]
    refine (code_repeats carried .value first).bind fun _ => ?_
    exact (chainCode_repeats carried rest).bind_last fun _ => .pure _
  | paren inner => by
    simp only [code]
    exact (code_repeats carried _ inner).bind_last fun _ => .pure _
  | collection items => by
    simp only [code]
    exact (ownedCodes_repeats carried items).bind_last fun _ => .pure _

theorem argumentCodes_repeats (carried : signatures.CarriedBy other) (function : String) :
    (parameters parameters' : List (String × Accessor)) → (arguments : List (Accessor × Expr)) →
    parameters.length = arguments.length → parameters'.map Prod.snd = parameters.map Prod.snd →
    Repeats (argumentCodes signatures function parameters arguments)
      (argumentCodes other function parameters' arguments) ((argumentUses arguments).map .use)
  | [], [], [], _, _ => by
    simp only [argumentCodes]
    exact .pure _
  | parameter :: parameters, parameter' :: parameters', (accessor, value) :: arguments, counted, same => by
    simp only [List.map_cons, List.cons.injEq] at same
    simp only [argumentCodes, argumentUses, List.map_append, List.map_map]
    refine (pass_repeats same.1 fun form => code_repeats carried form value).bind fun _ => ?_
    have fewer : parameters.length = arguments.length := by simpa using counted
    have later := argumentCodes_repeats carried function parameters parameters' arguments fewer same.2
    exact later.bind_last fun _ => .pure _

theorem operandCodes_repeats (carried : signatures.CarriedBy other) :
    (operands : List Method.Operand) → (arguments : List Expr) → operands.length = arguments.length →
    Repeats (operandCodes signatures operands arguments) (operandCodes other operands arguments)
      ((listUses arguments).map .use)
  | [], [], _ => by
    simp only [operandCodes]
    exact .pure _
  | operand :: operands, value :: arguments, counted => by
    simp only [operandCodes, listUses, List.map_append]
    refine (argument_repeats fun form => code_repeats carried form value).bind fun _ => ?_
    have later := operandCodes_repeats carried operands arguments (by simpa using counted)
    exact later.bind_last fun _ => .pure _

theorem chainCode_repeats (carried : signatures.CarriedBy other) : (rest : List (BinaryOp × Expr)) →
    Repeats (chainCode signatures rest) (chainCode other rest) ((chainUses rest).map .use)
  | [] => .pure _
  | (operator, operand) :: rest => by
    simp only [chainCode, chainUses, List.map_append]
    refine (code_repeats carried .value operand).bind fun _ => ?_
    exact (chainCode_repeats carried rest).bind_last fun _ => .pure _

theorem ownedCodes_repeats (carried : signatures.CarriedBy other) : (items : List Expr) →
    Repeats (ownedCodes signatures items) (ownedCodes other items) ((listUses items).map .use)
  | [] => .pure _
  | item :: items => by
    simp only [ownedCodes, listUses, List.map_append]
    refine (own_repeats fun form => code_repeats carried form item).bind fun _ => ?_
    exact (ownedCodes_repeats carried items).bind_last fun _ => .pure _

end

theorem lentCode_repeats (carried : signatures.CarriedBy other) (expr : Expr) :
    Repeats (expr.lentCode signatures) (expr.lentCode other) expr.steps :=
  lend_repeats fun form => code_repeats carried form expr

theorem ownedCode_repeats (carried : signatures.CarriedBy other) (expr : Expr) :
    Repeats (expr.ownedCode signatures) (expr.ownedCode other) expr.steps :=
  own_repeats fun form => code_repeats carried form expr

theorem itemsCode_repeats (carried : signatures.CarriedBy other) (expr : Expr) :
    Repeats (expr.itemsCode signatures) (expr.itemsCode other) expr.steps := by
  cases expr with
  | collection items => exact (ownedCodes_repeats carried items).bind_last fun _ => .pure _
  | _ => exact .throw _

end Tables

variable (signatures : Signatures)

theorem code_performs (form : Form) (expr : Expr) : Performs (expr.code signatures form) expr.steps :=
  (code_repeats (.refl signatures) form expr).performs

theorem lentCode_performs (expr : Expr) : Performs (expr.lentCode signatures) expr.steps :=
  (lentCode_repeats (.refl signatures) expr).performs

theorem ownedCode_performs (expr : Expr) : Performs (expr.ownedCode signatures) expr.steps :=
  (ownedCode_repeats (.refl signatures) expr).performs

end Expr

end Lowering
