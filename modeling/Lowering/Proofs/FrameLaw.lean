import Lowering.Proofs.ActionEffects
import Lowering.Proofs.RootRetention
import Lowering.Proofs.ScopeFreedom

/-! What writing code out does to a scope, even where it is refused half-way. Every block and loop
that was opened is closed again, no variable is lost, a variable is at most moved where it was
not before, and only the declaration of a variable adds one, in the block that it stands in. -/

namespace Lowering

open Lowering.Action (Leaves)
open Lowering.Scope (Keeps Extends)

namespace Action

variable {action : Action α}

theorem Leaves.readable (name : String) : Leaves Keeps (readable name) :=
  .inspect _

theorem Leaves.writable (name : String) : Leaves Keeps (writable name) :=
  .inspect _

theorem Leaves.pass (name : String) (accessor : Accessor) : Leaves Keeps (pass name accessor) :=
  .change (fun _ _ => Scope.pass_keeps) .refl

theorem Leaves.inBlock (leaves : Leaves Extends action) : Leaves Keeps (inBlock action) :=
  leaves.between fun _ _ ⟨_, grown⟩ => Scope.closeBlock_keeps grown

theorem Leaves.inLoop (leaves : Leaves Extends action) : Leaves Keeps (inLoop action) :=
  leaves.between fun _ _ ⟨_, grown⟩ => Scope.closeLoop_keeps grown

theorem Leaves.toExtends (leaves : Leaves Keeps action) : Leaves Extends action :=
  leaves.imp fun _ _ kept => ⟨[], .of_keeps kept⟩

end Action

namespace Expr

section Forms

variable {expr : Expr} {code : Form → Action String}

theorem lend_leaves (leaves : ∀ form, Leaves Keeps (code form)) : Leaves Keeps (expr.lend code) := by
  cases expr with
  | identifier name =>
    refine (Leaves.readable name).bind fun binding => ?_
    split
    · exact (Leaves.lift _).bind fun _ => .pure _
    · exact (leaves .place).bind fun _ => .pure _
  | _ =>
    simp only [lend]
    split
    · exact (leaves .place).bind fun _ => .pure _
    · exact leaves .value

theorem own_leaves (leaves : ∀ form, Leaves Keeps (code form)) : Leaves Keeps (expr.own code) := by
  refine (leaves .value).bind fun _ => ?_
  split <;> exact .pure _

theorem passStored_leaves {function root : String} {parameter : String × Accessor} {accessor : Accessor}
    (leaves : ∀ form, Leaves Keeps (code form)) :
    Leaves Keeps (expr.passStored function parameter accessor root code) := by
  cases expr with
  | identifier name =>
    simp only [passStored, bind_map_left]
    refine (Leaves.readable name).bind fun binding => ?_
    cases accessor with
    | copy => exact (leaves .value).bind fun _ => .pure _
    | look => exact lend_leaves leaves
    | mutate =>
      simp only
      split
      · exact (Leaves.lift _).bind fun _ => .pure _
      · exact (leaves .place).bind fun _ => .pure _
    | move => exact .lift _
  | _ =>
    simp only [passStored, pure_bind]
    cases accessor with
    | copy => exact (leaves .value).bind fun _ => .pure _
    | look => exact lend_leaves leaves
    | mutate => exact (leaves .place).bind fun _ => .pure _
    | move => exact .throw _

theorem pass_leaves {function : String} {parameter : String × Accessor} {accessor : Accessor}
    (leaves : ∀ form, Leaves Keeps (code form)) : Leaves Keeps (expr.pass function parameter accessor code) := by
  unfold pass
  split
  · exact (leaves .value).bind fun _ => .pure _
  · split
    · exact (Leaves.throw _).bind fun _ => (passStored_leaves leaves).bind fun _ => (Leaves.pass _ _).bind fun _ => .pure _
    · exact (passStored_leaves leaves).bind fun _ => (Leaves.pass _ _).bind fun _ => .pure _

theorem argument_leaves {operand : Method.Operand} (leaves : ∀ form, Leaves Keeps (code form)) :
    Leaves Keeps (Method.argument operand expr code) := by
  cases operand with
  | position => exact (leaves .value).bind fun _ => .pure _
  | element => exact own_leaves leaves

end Forms

theorem checkReceiver_leaves (called : Method) (receiver : Expr) : Leaves Keeps (called.checkReceiver receiver) := by
  unfold Method.checkReceiver
  split
  · split
    · exact .throw _
    · exact (Leaves.writable _).bind fun _ => .pure _
  · exact .pure _

variable (signatures : Signatures)

mutual

/-- An expression declares nothing, and all that it may do to a variable is to move it. -/
theorem code_leaves (form : Form) : (expr : Expr) → Leaves Keeps (expr.code signatures form)
  | literal value => .lift _
  | identifier name => by
    simp only [code]
    refine (Leaves.readable name).bind fun _ => (Leaves.lift _).bind fun _ => ?_
    cases form <;> exact .pure _
  | call function arguments => by
    simp only [code]
    refine (Leaves.lift _).bind fun signature => ?_
    refine (argumentCodes_leaves function signature.parameters arguments).bind fun _ => ?_
    exact (Leaves.note _).bind fun _ => (Leaves.lift _).bind fun _ => .pure _
  | method receiver called marked arguments => by
    simp only [code]
    refine (Leaves.lift _).bind fun _ => (checkReceiver_leaves called receiver).bind fun _ => ?_
    refine (code_leaves .place receiver).bind fun _ => ?_
    exact (operandCodes_leaves called.operands arguments).bind fun _ => .pure _
  | field base name => by
    simp only [code]
    exact (code_leaves .place base).bind fun _ => (Leaves.lift _).bind fun _ => .pure _
  | index base position => by
    simp only [code]
    exact (code_leaves .place base).bind fun _ => (code_leaves .value position).bind fun _ => .pure _
  | unary operator operand => by
    simp only [code]
    exact (code_leaves .value operand).bind fun _ => .pure _
  | chain first rest => by
    simp only [code]
    exact (code_leaves .value first).bind fun _ => (chainCode_leaves rest).bind fun _ => .pure _
  | paren inner => by
    simp only [code]
    exact (code_leaves _ inner).bind fun _ => .pure _
  | collection items => by
    simp only [code]
    exact (ownedCodes_leaves items).bind fun _ => .pure _

theorem argumentCodes_leaves (function : String) : (parameters : List (String × Accessor)) →
    (arguments : List (Accessor × Expr)) → Leaves Keeps (argumentCodes signatures function parameters arguments)
  | [], _ | _ :: _, [] => by
    simp only [argumentCodes]
    exact .pure _
  | parameter :: parameters, (accessor, value) :: arguments => by
    simp only [argumentCodes]
    refine (pass_leaves fun form => code_leaves form value).bind fun _ => ?_
    exact (argumentCodes_leaves function parameters arguments).bind fun _ => .pure _

theorem operandCodes_leaves : (operands : List Method.Operand) → (arguments : List Expr) →
    Leaves Keeps (operandCodes signatures operands arguments)
  | [], _ | _ :: _, [] => by
    simp only [operandCodes]
    exact .pure _
  | operand :: operands, value :: arguments => by
    simp only [operandCodes]
    refine (argument_leaves fun form => code_leaves form value).bind fun _ => ?_
    exact (operandCodes_leaves operands arguments).bind fun _ => .pure _

theorem chainCode_leaves : (rest : List (BinaryOp × Expr)) → Leaves Keeps (chainCode signatures rest)
  | [] => .pure _
  | (operator, operand) :: rest => by
    simp only [chainCode]
    exact (code_leaves .value operand).bind fun _ => (chainCode_leaves rest).bind fun _ => .pure _

theorem ownedCodes_leaves : (items : List Expr) → Leaves Keeps (ownedCodes signatures items)
  | [] => .pure _
  | item :: items => by
    simp only [ownedCodes]
    refine (own_leaves fun form => code_leaves form item).bind fun _ => ?_
    exact (ownedCodes_leaves items).bind fun _ => .pure _

end

theorem lentCode_leaves (expr : Expr) : Leaves Keeps (expr.lentCode signatures) :=
  lend_leaves fun form => code_leaves signatures form expr

theorem ownedCode_leaves (expr : Expr) : Leaves Keeps (expr.ownedCode signatures) :=
  own_leaves fun form => code_leaves signatures form expr

theorem itemsCode_leaves (expr : Expr) : Leaves Keeps (expr.itemsCode signatures) := by
  cases expr with
  | collection items => exact (ownedCodes_leaves signatures items).bind fun _ => .pure _
  | _ => exact .throw _

end Expr

namespace Statement

/-- The variable that a statement adds to the block in which it stands. -/
def addition (loopDepth : Nat) : Statement → Frame
  | binding mutable name _ _ => [(name, ⟨.declared mutable, false, loopDepth⟩)]
  | _ => []

private theorem depth_addition {statement : Statement} {loopDepth : Nat} {entry : String × Binding}
    (member : entry ∈ statement.addition loopDepth) : entry.2.depth = loopDepth := by
  cases statement with
  | binding mutable name type value =>
    cases List.mem_singleton.mp member
    rfl
  | _ => cases member

/-- Everything is kept, and the statement has added its variable, unless it failed before it came
to that. -/
def Changes (statement : Statement) (before : Scope) (ended : Except Error α × Work) : Prop :=
  ∃ kept, before.Keeps kept ∧ (ended.2.scope = kept.extend (statement.addition before.loopDepth) ∨
    ended.1.isOk = false ∧ ended.2.scope = kept)

namespace Changes

variable {statement : Statement} {action : Action α} {next : α → Action β} {scope : Scope} {before : Work}

theorem of_leaves (leaves : Leaves Keeps action) (plain : statement.addition before.scope.loopDepth = []) :
    statement.Changes before.scope (action before) :=
  ⟨_, leaves before, .inl (by rw [plain]; rfl)⟩

/-- What comes before the declaration may only move variables. -/
theorem after (leaves : Leaves Keeps action) (changes : ∀ value work, statement.Changes work.scope (next value work)) :
    statement.Changes before.scope ((action >>= next) before) := by
  have keeps := leaves before
  cases ran : action before with
  | mk answer work =>
    rw [ran] at keeps
    cases answer with
    | error error =>
      rw [Action.bind_of_error ran]
      exact ⟨work.scope, keeps, .inr ⟨rfl, rfl⟩⟩
    | ok value =>
      rw [Action.bind_of_ok ran]
      obtain ⟨kept, later, ended⟩ := changes value work
      rw [keeps.loopDepth] at ended
      exact ⟨kept, keeps.trans later, ended⟩

/-- What comes behind the declaration leaves the scope alone. -/
theorem bind (changes : statement.Changes scope (action before)) (silent : ∀ value, Leaves Eq (next value)) :
    statement.Changes scope ((action >>= next) before) := by
  obtain ⟨kept, keeps, added | ⟨failed, cut⟩⟩ := changes
  · exact ⟨kept, keeps, .inl ((Leaves.scope_bind silent before).trans added)⟩
  · refine ⟨kept, keeps, .inr ⟨?_, (Leaves.scope_bind silent before).trans cut⟩⟩
    cases ran : action before with
    | mk answer work =>
      rw [ran] at failed
      cases answer with
      | ok value => cases failed
      | error error => rw [Action.bind_of_error ran]; rfl

theorem toExtends {ended : Except Error α × Work} (changes : statement.Changes scope ended) :
    scope.Extends ended.2.scope := by
  obtain ⟨kept, keeps, added | ⟨_, cut⟩⟩ := changes
  · have new : kept.Grows _ (kept.extend (statement.addition scope.loopDepth)) :=
      ⟨_, rfl, fun _ member => (depth_addition member).trans keeps.loopDepth.symm, .refl _⟩
    rw [added]
    exact ⟨_, (Scope.Grows.of_keeps keeps).trans new⟩
  · rw [cut]
    exact ⟨[], .of_keeps keeps⟩

end Changes

theorem declare_changes (mutable : Bool) (name : String) (type : Option Tree) (value : Expr) (before : Work) :
    (binding mutable name type value).Changes before.scope (Action.declare name (.declared mutable) before) := by
  refine ⟨before.scope, .refl _, ?_⟩
  cases declared : before.scope.declare name (.declared mutable) with
  | error error => exact .inr (by rw [Action.declare, Action.change_of_error declared]; exact ⟨rfl, rfl⟩)
  | ok scope =>
    rw [Action.declare, Action.change_of_ok declared]
    exact .inl (Scope.declare_ok.mp declared).2.symm

private theorem declaring_changes (mutable : Bool) (name : String) (type : Option Tree) (value : Expr)
    {typed : Action String} (silent : Leaves Eq typed) (finish : String → String → String) (before : Work) :
    (binding mutable name type value).Changes before.scope
      ((do
        Action.declare name (.declared mutable)
        let typed ← typed
        return finish typed (← Name.code name) : Action String) before) := by
  refine (declare_changes mutable name type value before).bind fun _ => silent.bind fun _ => ?_
  exact (Leaves.lift _).bind fun _ => .pure _

variable (context : BodyContext)

/-- A variable is declared once its value is there, whatever becomes of its type and its name. -/
theorem bindingCode_changes (mutable : Bool) (name : String) (type : Option Tree) (value : Expr) (before : Work) :
    (binding mutable name type value).Changes before.scope (bindingCode context mutable name type value before) := by
  have owned := value.ownedCode_leaves context.signatures
  cases type with
  | none => cases value <;> exact .after owned fun _ work => declaring_changes mutable name _ _ (.pure _) _ work
  | some tree =>
    have typed : Leaves Eq ((": " ++ ·) <$> liftM (DeclaredType.code tree) : Action String) := (Leaves.lift _).map _
    cases value with
    | collection items =>
      have listed := (Expr.collection items).itemsCode_leaves context.signatures
      simp only [bindingCode, bind_map_left]
      refine .after listed fun _ work => (declare_changes mutable name _ _ work).bind fun _ => ?_
      exact (Leaves.lift _).bind fun _ => (Leaves.lift _).bind fun _ => .pure _
    | _ => exact .after owned fun _ work => declaring_changes mutable name _ _ typed _ work

theorem printCode_leaves (values : List Expr) : Leaves Keeps (printCode context values) :=
  (Leaves.mapM fun value => value.lentCode_leaves context.signatures).bind fun _ => .pure _

theorem setCode_leaves (target : Expr) (operator : AssignOp) (value : Expr) :
    Leaves Keeps (setCode context target operator value) := by
  unfold setCode
  split
  · exact .throw _
  · refine (Leaves.writable _).bind fun binding => (value.ownedCode_leaves context.signatures).bind fun _ => ?_
    split
    · exact ((Leaves.lift _).map _).bind fun _ => .pure _
    · exact (Expr.code_leaves context.signatures .place _).bind fun _ => .pure _

theorem returningCode_leaves (value : Option Expr) : Leaves Keeps (returningCode context value) := by
  unfold returningCode
  split
  · exact (Expr.ownedCode_leaves context.signatures _).bind fun _ => .pure _
  · exact .pure _
  · exact .throw _
  · exact .throw _

theorem jumpCode_leaves (keyword : String) : Leaves Keeps (jumpCode keyword) := by
  refine (Leaves.inspect _).bind fun inside => ?_
  split
  · exact .pure _
  · exact .throw _

theorem rangeCode_leaves (range : Range) : Leaves Keeps (rangeCode context range) := by
  cases range with
  | bounds first last =>
    refine (first.code_leaves context.signatures .value).bind fun _ => ?_
    exact (last.code_leaves context.signatures .value).bind fun _ => .pure _
  | each collection =>
    simp only [rangeCode]
    split
    · exact (collection.code_leaves context.signatures .place).bind fun _ => .pure _
    · exact (collection.code_leaves context.signatures .value).bind fun _ => .pure _

theorem subjectCode_leaves (subject : Expr) : Leaves Keeps (subjectCode context subject) := by
  unfold subjectCode
  split
  · exact subject.lentCode_leaves context.signatures
  · exact (subject.code_leaves context.signatures .value).bind fun _ => .pure _

theorem testCode_leaves (value : Expr) : Leaves Keeps (testCode context value) :=
  (value.code_leaves context.signatures .value).bind fun _ => .pure _

theorem inBody_leaves {body : Action BodyCode} (leaves : Leaves Extends body) : Leaves Keeps (inBody body) :=
  leaves.inBlock.bind fun _ => .pure _

/-- One round of a while loop. -/
theorem whileRound_leaves (condition : Expr) {body : Action BodyCode} (leaves : Leaves Extends body) :
    Leaves Extends (do
      let test ← condition.code context.signatures .value
      return (test, ← inBody body) : Action (String × BodyCode)) :=
  ((condition.code_leaves context.signatures .value).bind fun _ => (inBody_leaves leaves).bind fun _ => .pure _).toExtends

theorem declare_extends (name : String) (origin : Origin) : Leaves Extends (Action.declare name origin) :=
  .change (fun _ _ declared => ⟨_, Scope.declare_grows declared⟩) (refl_of Extends)

/-- One round of a for loop. -/
theorem forRound_leaves (name : String) (borrowed : Bool) {body : Action BodyCode} (leaves : Leaves Extends body) :
    Leaves Extends (do
      Action.declare name (.loopItem borrowed)
      inBody body : Action BodyCode) :=
  (declare_extends name _).bind fun _ => (inBody_leaves leaves).toExtends

mutual

/-- A statement changes nothing but what its own uses move and what it declares itself. -/
theorem code_changes : (statement : Statement) → (before : Work) →
    statement.Changes before.scope (statement.code context before)
  | print values, before => by
    simp only [code]
    exact .of_leaves ((printCode_leaves context values).bind fun _ => .pure _) rfl
  | binding mutable name type value, before => by
    simp only [code]
    exact (bindingCode_changes context mutable name type value before).bind fun _ => .pure _
  | set target operator value, before => by
    simp only [code]
    exact .of_leaves ((setCode_leaves context target operator value).bind fun _ => .pure _) rfl
  | run term, before => by
    simp only [code]
    exact .of_leaves ((term.code_leaves context.signatures .value).bind fun _ => .pure _) rfl
  | returning value, before => by
    simp only [code]
    exact .of_leaves ((returningCode_leaves context value).bind fun _ => .pure _) rfl
  | breaking, before | continuing, before => by
    simp only [code]
    exact .of_leaves ((jumpCode_leaves _).bind fun _ => .pure _) rfl
  | whileLoop condition body, before => by
    simp only [code]
    refine .of_leaves ((whileRound_leaves context condition (listCode_extends body)).inLoop.bind fun _ => ?_) rfl
    split <;> exact .pure _
  | forLoop name range body, before => by
    simp only [code]
    refine .of_leaves ((rangeCode_leaves context range).bind fun ranged => ?_) rfl
    refine (forRound_leaves name ranged.2 (listCode_extends body)).inLoop.attempt.bind fun _ => ?_
    exact (Leaves.lift _).bind fun _ => (Leaves.lift _).bind fun _ => .pure _
  | ifBlock branches otherwise, before => by
    simp only [code]
    refine .of_leaves ((branchCodes_leaves branches).bind fun _ => ?_) rfl
    exact (defaultCode_leaves otherwise).bind fun _ => .pure _
  | matchBlock subject arms otherwise, before => by
    simp only [code]
    refine .of_leaves ((subjectCode_leaves context subject).bind fun _ => (armCodes_leaves arms).bind fun _ => ?_) rfl
    exact (defaultCode_leaves otherwise).bind fun _ => .pure _

theorem listCode_extends : (statements : List Statement) → Leaves Extends (listCode context statements)
  | [] => .pure _
  | statement :: rest => by
    simp only [listCode]
    have first : Leaves Extends (code context statement) := fun before => (code_changes statement before).toExtends
    exact first.bind fun _ => (listCode_extends rest).bind fun _ => .pure _

theorem branchCodes_leaves : (branches : List (Expr × List Statement)) → Leaves Keeps (branchCodes context branches)
  | [] => .pure _
  | (condition, body) :: rest => by
    simp only [branchCodes]
    refine (condition.code_leaves context.signatures .value).bind fun _ => ?_
    refine (inBody_leaves (listCode_extends body)).bind fun _ => ?_
    exact (branchCodes_leaves rest).bind fun _ => .pure _

theorem armCodes_leaves : (arms : List (List Expr × List Statement)) → Leaves Keeps (armCodes context arms)
  | [] => .pure _
  | (values, body) :: rest => by
    simp only [armCodes]
    refine (Leaves.mapM fun value => testCode_leaves context value).bind fun _ => ?_
    refine (inBody_leaves (listCode_extends body)).bind fun _ => ?_
    exact (armCodes_leaves rest).bind fun _ => .pure _

theorem defaultCode_leaves : (otherwise : Option (List Statement)) → Leaves Keeps (defaultCode context otherwise)
  | none => .pure _
  | some body => by
    simp only [defaultCode]
    exact (inBody_leaves (listCode_extends body)).map _

end

theorem code_extends (statement : Statement) : Leaves Extends (statement.code context) :=
  fun before => (code_changes context statement before).toExtends

end Statement

/-- Whatever is written out and however it ends, the same blocks and loops are open as before, with
the same variables in them, some of which may now be moved. A statement adds its own variable to
the innermost block, where it is one that declares a variable; one that fails need not have come
to that. -/
theorem frame_law (context : BodyContext) (before : Work) :
    (∀ expr : Expr, ∀ action ∈ expr.itemsCode context.signatures :: expr.writings context.signatures,
      before.scope.Freer (action before).2.scope) ∧
    ∀ statement : Statement, ∃ kept, before.scope.Freer kept ∧
      let (answer, after) := statement.code context before
      after.scope = kept.extend (statement.addition before.scope.loopDepth) ∨
        answer.isOk = false ∧ after.scope = kept := by
  constructor
  · intro expr action one
    have leaves : Leaves Keeps action := by
      simp only [Expr.writings, List.mem_cons, List.not_mem_nil, or_false] at one
      rcases one with rfl | rfl | rfl | rfl | rfl
      · exact expr.itemsCode_leaves context.signatures
      · exact expr.code_leaves context.signatures .value
      · exact expr.code_leaves context.signatures .place
      · exact expr.lentCode_leaves context.signatures
      · exact expr.ownedCode_leaves context.signatures
    exact (Scope.Freer.refl _).keep (leaves before)
  · intro statement
    obtain ⟨kept, keeps, ended⟩ := statement.code_changes context before
    exact ⟨kept, (Scope.Freer.refl _).keep keeps, ended⟩

end Lowering
