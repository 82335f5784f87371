import Lowering.Proofs.ExprSteps
import Lowering.Proofs.ScopeUses
import Lowering.Statement.Code

/-! The steps of a statement, in the order of the text: every branch and every body is taken
once. Writing a statement out takes the scope through exactly these steps, and what is written
depends on nothing else than the declarations in the scope, the accessors of the functions called
and whether a result is to be returned. -/

namespace Lowering

/-- The same is known of every function called, and the same is asked of every return. -/
structure BodyContext.CarriedBy (context other : BodyContext) : Prop where
  signatures : context.signatures.CarriedBy other.signatures
  hasResult : other.hasResult = context.hasResult

theorem BodyContext.CarriedBy.refl (context : BodyContext) : CarriedBy context context :=
  ⟨.refl _, rfl⟩

namespace Range

def uses : Range → List Use
  | bounds first last => first.uses ++ last.uses
  | each collection => collection.uses

/-- The variable of a for loop is an element of a collection rather than a number. -/
def borrows : Range → Bool
  | bounds _ _ => false
  | each _ => true

end Range

namespace Statement

/-- The uses that a statement makes itself, before any body within it. -/
def uses : Statement → List Use
  | print values => Expr.listUses values
  | binding _ _ _ value => value.uses
  | set target _ value => target.root?.toList.map .set ++ (value.uses ++ target.uses)
  | run term => term.uses
  | returning value => value.toList.flatMap Expr.uses
  | breaking | continuing => []
  | whileLoop condition _ => condition.uses
  | forLoop _ range _ => range.uses
  | ifBlock _ _ => []
  | matchBlock subject _ _ => subject.uses

def blockSteps (inner : List Step) : List Step :=
  .openBlock :: inner ++ [.closeBlock]

/-- One round of a loop, which opens a block of its own before that of the body. -/
def roundSteps (head inner : List Step) : List Step :=
  .openLoop :: (head ++ blockSteps inner) ++ [.closeLoop]

mutual

def steps : Statement → List Step
  | print values => (print values).uses.map .use
  | binding mutable name _ value => value.steps ++ [.declare name (.declared mutable)]
  | set target operator value => (set target operator value).uses.map .use
  | run term => term.steps
  | returning value => (returning value).uses.map .use
  | breaking => [.jump "break"]
  | continuing => [.jump "continue"]
  | whileLoop condition body => roundSteps condition.steps (bodySteps body)
  | forLoop name range body =>
    range.uses.map .use ++ roundSteps [.declare name (.loopItem range.borrows)] (bodySteps body)
  | ifBlock branches otherwise => branchSteps branches ++ defaultSteps otherwise
  | matchBlock subject arms otherwise =>
    subject.steps ++ (armSteps arms ++ defaultSteps otherwise)

def bodySteps : List Statement → List Step
  | [] => []
  | statement :: rest => steps statement ++ bodySteps rest

def branchSteps : List (Expr × List Statement) → List Step
  | [] => []
  | (condition, body) :: rest => condition.steps ++ (blockSteps (bodySteps body) ++ branchSteps rest)

def armSteps : List (List Expr × List Statement) → List Step
  | [] => []
  | (values, body) :: rest =>
    values.flatMap Expr.steps ++ (blockSteps (bodySteps body) ++ armSteps rest)

def defaultSteps : Option (List Statement) → List Step
  | none => []
  | some body => blockSteps (bodySteps body)

end

theorem bodySteps_eq (statements : List Statement) : bodySteps statements = statements.flatMap steps := by
  induction statements with
  | nil => rfl
  | cons statement rest ih => rw [bodySteps, List.flatMap_cons, ih]

theorem testSteps_eq (values : List Expr) : values.flatMap Expr.steps = (values.flatMap Expr.uses).map .use :=
  List.map_flatMap.symm

open Lowering.Action (Performs Repeats)

theorem loan_not_movable {binding : Binding} (loan : binding.isLoan = true) :
    binding.isMovable = false := by
  obtain ⟨origin, moved, depth⟩ := binding
  cases origin with
  | declared mutable => cases loan
  | parameter accessor => cases accessor <;> first | rfl | cases loan
  | loopItem borrowed => rfl

/-- A target that refers to another value keeps it while the assigned value is written out,
since it owns nothing that could be moved. -/
theorem loan_kept {before after : Scope} {uses : List Use} {root : String} {binding : Binding}
    (found : before.find? root = some binding) (whole : binding.moved = false)
    (loan : binding.isLoan = true) (ran : before.run (uses.map .use) = .ok after) : after.Holds root := by
  apply (Scope.holds_run_iff ran ⟨binding, found, whole⟩).mpr
  intro given
  obtain ⟨same, there, _, permitted, _⟩ := Scope.run_allows ran given
  cases found.symm.trans there
  have movable : binding.isMovable = true := permitted
  rw [loan_not_movable loan] at movable
  cases movable

variable {context other : BodyContext}

/-- A variable that is assigned to and read again once the assigned value is there. Where it
refers to another value, reading it changes nothing, and so does not reading it again. -/
private theorem assigning_repeats {α : Type} {next next' : Binding → Action α} {root : String} {uses : List Use}
    (continues : ∀ binding, Repeats (next binding) (next' binding) (uses.map .use ++ [.use (.read root)]) ∨
      binding.isLoan = true ∧ Repeats (next binding) (next' binding) (uses.map .use)) :
    Repeats (Action.writable root >>= next) (Action.writable root >>= next')
      ([.use (.set root)] ++ (uses.map .use ++ [.use (.read root)])) := by
  intro before value after ran
  obtain ⟨binding, work, checked, finish⟩ := bind_ok.mp ran
  obtain ⟨opened, answers⟩ := Repeats.writable (.inl (rfl : Use.set root = _)) _ _ _ checked
  rcases continues binding with reads | ⟨loan, silent⟩
  · obtain ⟨closed, answers'⟩ := reads _ _ _ finish
    refine ⟨Scope.run_append.mpr ⟨_, opened, closed⟩, fun again last alike ran' => ?_⟩
    obtain ⟨between, opened', closed'⟩ := Scope.run_append.mp ran'
    obtain ⟨reached, same, rfl⟩ := answers again between alike opened'
    obtain ⟨finished, equal, lasts⟩ := answers' reached last (alike.run opened opened') closed'
    exact ⟨finished, bind_ok.mpr ⟨binding, reached, same, equal⟩, lasts⟩
  · obtain ⟨closed, answers'⟩ := silent _ _ _ finish
    obtain ⟨permitted, rfl⟩ := Action.inspect_ok.mp checked
    obtain ⟨found, whole, _⟩ := Scope.writable_ok.mp permitted
    obtain ⟨still, there, kept⟩ := loan_kept found whole loan closed
    have idle : after.scope.check (.read root) = .ok after.scope :=
      Scope.check_ok.mpr ⟨still, there, kept, trivial, rfl⟩
    refine ⟨Scope.run_append.mpr ⟨_, opened, Scope.run_append.mpr ⟨_, closed, Scope.run_one.mpr idle⟩⟩, ?_⟩
    intro again last alike ran'
    obtain ⟨between, opened', ran'⟩ := Scope.run_append.mp ran'
    obtain ⟨ending, closed', ran'⟩ := Scope.run_append.mp ran'
    obtain ⟨_, _, rfl⟩ := except_map_ok.mp (Scope.run_one.mp ran')
    obtain ⟨reached, same, rfl⟩ := answers again between alike opened'
    obtain ⟨finished, equal, lasts⟩ := answers' reached ending (alike.run opened opened') closed'
    exact ⟨finished, bind_ok.mpr ⟨binding, reached, same, equal⟩, lasts⟩

theorem setCode_repeats (carried : context.CarriedBy other) (target : Expr) (operator : AssignOp) (value : Expr) :
    Repeats (setCode context target operator value) (setCode other target operator value)
      ((set target operator value).uses.map .use) := by
  cases rooted : target.root? with
  | none =>
    simp only [setCode, rooted]
    exact .throw _
  | some root =>
    have owned := value.ownedCode_repeats carried.signatures
    have targeted := target.code_repeats carried.signatures .place
    simp only [setCode, uses, rooted, Option.toList_some, List.map_append, List.map_singleton]
    cases target with
    | identifier name =>
      cases rooted
      refine assigning_repeats fun binding => ?_
      cases loan : binding.isLoan with
      | true =>
        simp only [bind_map_left]
        exact .inr ⟨trivial, owned.bind_last fun _ => .bind_first (.lift _) fun _ => .pure _⟩
      | false => exact .inl (owned.bind fun _ => targeted.bind_last fun _ => .pure _)
    | _ =>
      refine (Repeats.writable (.inl rfl)).bind fun _ => owned.bind fun _ => ?_
      exact targeted.bind_last fun _ => .pure _

theorem printCode_repeats (carried : context.CarriedBy other) (values : List Expr) :
    Repeats (printCode context values) (printCode other values) ((print values).uses.map .use) := by
  have written := Repeats.mapM values fun value _ => value.lentCode_repeats carried.signatures
  simp only [uses, Expr.listUses_eq, List.map_flatMap]
  exact written.bind_last fun _ => .pure _

private theorem declaring_repeats (name : String) (origin : Origin) {typed : Action String}
    (silent : Repeats typed typed []) (finish : String → String → String) :
    Repeats
      (do
        Action.declare name origin
        let typed ← typed
        return finish typed (← Name.code name))
      (do
        Action.declare name origin
        let typed ← typed
        return finish typed (← Name.code name)) [.declare name origin] := by
  refine (Repeats.declare name origin).bind_last fun _ => silent.bind_first fun _ => ?_
  exact .bind_first (.lift _) fun _ => .pure _

theorem bindingCode_repeats (carried : context.CarriedBy other) (mutable : Bool) (name : String)
    (type : Option Tree) (value : Expr) :
    Repeats (bindingCode context mutable name type value) (bindingCode other mutable name type value)
      (value.steps ++ [.declare name (.declared mutable)]) := by
  have owned := value.ownedCode_repeats carried.signatures
  cases type with
  | none => cases value <;> exact owned.bind fun _ => declaring_repeats name _ (.pure _) _
  | some tree =>
    have typed := (Repeats.lift (DeclaredType.code tree)).map (": " ++ ·)
    cases value with
    | collection items =>
      have listed := (Expr.collection items).itemsCode_repeats carried.signatures
      simp only [bindingCode, bind_map_left]
      refine listed.bind fun _ => (Repeats.declare name _).bind_last fun _ => ?_
      exact .bind_first (.lift _) fun _ => .bind_first (.lift _) fun _ => .pure _
    | _ => exact owned.bind fun _ => declaring_repeats name _ typed _

theorem returningCode_repeats (carried : context.CarriedBy other) (value : Option Expr) :
    Repeats (returningCode context value) (returningCode other value) ((returning value).uses.map .use) := by
  unfold returningCode
  rw [carried.hasResult]
  cases value with
  | none =>
    cases context.hasResult with
    | true => exact .throw _
    | false => exact .pure _
  | some value =>
    cases context.hasResult with
    | true =>
      simp only [uses, Option.toList_some, List.flatMap_singleton]
      exact (value.ownedCode_repeats carried.signatures).bind_last fun _ => .pure _
    | false => exact .throw _

theorem jumpCode_repeats (keyword : String) :
    Repeats (jumpCode keyword) (jumpCode keyword) [.jump keyword] := by
  have answers {work : Work} (inside : 0 < work.scope.loopDepth) :
      jumpCode keyword work = (.ok (keyword ++ ";\n"), work) := by
    refine bind_ok.mpr ⟨true, work, Action.inspect_ok.mpr ⟨by simp [Scope.isInLoop, inside], rfl⟩, ?_⟩
    exact pure_ok.mpr ⟨rfl, rfl⟩
  intro before text after ran
  obtain ⟨inLoop, work, asked, finish⟩ := bind_ok.mp ran
  obtain ⟨answer, rfl⟩ := Action.inspect_ok.mp asked
  cases answer
  split at finish
  next inside =>
    obtain ⟨rfl, rfl⟩ := pure_ok.mp finish
    refine ⟨Scope.run_one.mpr (Scope.jump_ok.mpr ⟨by simpa [Scope.isInLoop] using inside, rfl⟩), ?_⟩
    intro again last alike ran'
    obtain ⟨inside', rfl⟩ := Scope.jump_ok.mp (Scope.run_one.mp ran')
    exact ⟨again, answers inside', rfl⟩
  next => exact (throw_ok finish).elim

theorem rangeCode_repeats (carried : context.CarriedBy other) (range : Range) :
    Repeats (rangeCode context range) (rangeCode other range) (range.uses.map .use) := by
  cases range with
  | bounds first last =>
    simp only [rangeCode, Range.uses, List.map_append]
    refine (first.code_repeats carried.signatures .value).bind fun _ => ?_
    exact (last.code_repeats carried.signatures .value).bind_last fun _ => .pure _
  | each collection =>
    simp only [rangeCode]
    split
    · exact (collection.code_repeats carried.signatures .place).bind_last fun _ => .pure _
    · exact (collection.code_repeats carried.signatures .value).bind_last fun _ => .pure _

theorem rangeCode_borrows {range : Range} {before after : Work} {header : String} {borrowed : Bool}
    (ran : rangeCode context range before = (.ok (header, borrowed), after)) :
    borrowed = range.borrows := by
  cases range with
  | bounds first last =>
    obtain ⟨_, _, _, ran⟩ := bind_ok.mp ran
    obtain ⟨_, _, _, ran⟩ := bind_ok.mp ran
    obtain ⟨same, _⟩ := pure_ok.mp ran
    exact (congrArg Prod.snd same).symm
  | each collection =>
    simp only [rangeCode] at ran
    split at ran
    all_goals
      obtain ⟨_, _, _, ran⟩ := bind_ok.mp ran
      obtain ⟨same, _⟩ := pure_ok.mp ran
      exact (congrArg Prod.snd same).symm

theorem subjectCode_repeats (carried : context.CarriedBy other) (subject : Expr) :
    Repeats (subjectCode context subject) (subjectCode other subject) subject.steps := by
  unfold subjectCode
  split
  · exact subject.lentCode_repeats carried.signatures
  · exact (subject.code_repeats carried.signatures .value).bind_last fun _ => .pure _

theorem testCode_repeats (carried : context.CarriedBy other) (value : Expr) :
    Repeats (testCode context value) (testCode other value) value.steps :=
  (value.code_repeats carried.signatures .value).bind_last fun _ => .pure _

theorem inBody_repeats {body body' : Action BodyCode} {inner : List Step} (repeats : Repeats body body' inner) :
    Repeats (inBody body) (inBody body') (blockSteps inner) :=
  repeats.inBlock.bind_last fun _ => .pure _

/-- The rounds of a for loop. Their outcome is kept until the name is known to be one, and then
has to be a success. -/
private theorem rounds_repeats {α β : Type} {rounds rounds' : Action α} {steps : List Step} (named : Except Error β)
    (finish : β → α → StatementCode) (repeats : Repeats rounds rounds' steps) :
    Repeats
      (do
        let outcome ← Action.attempt rounds
        let target ← liftM named
        let block ← liftM outcome
        return finish target block)
      (do
        let outcome ← Action.attempt rounds'
        let target ← liftM named
        let block ← liftM outcome
        return finish target block) steps := by
  intro before written after ran
  obtain ⟨outcome, looped, attempted, ran⟩ := bind_ok.mp ran
  obtain ⟨target, work, spelled, ran⟩ := bind_ok.mp ran
  obtain ⟨spelling, rfl⟩ := lift_ok.mp spelled
  obtain ⟨block, last, kept, ran⟩ := bind_ok.mp ran
  obtain ⟨rfl, rfl⟩ := lift_ok.mp kept
  obtain ⟨rfl, rfl⟩ := pure_ok.mp ran
  obtain ⟨taken, answers⟩ := repeats _ _ _ (Action.attempt_ok.mp attempted)
  refine ⟨taken, fun again last alike ran' => ?_⟩
  obtain ⟨finished, same, lasts⟩ := answers again last alike ran'
  refine ⟨finished, bind_ok.mpr ⟨_, finished, Action.attempt_ok.mpr same, ?_⟩, lasts⟩
  refine bind_ok.mpr ⟨target, finished, lift_ok.mpr ⟨spelling, rfl⟩, ?_⟩
  exact bind_ok.mpr ⟨block, finished, lift_ok.mpr ⟨rfl, rfl⟩, pure_ok.mpr ⟨rfl, rfl⟩⟩

mutual

/-- Writing a statement out takes the scope through the statement's steps, and gives the same code
again wherever these go through. -/
theorem code_repeats (carried : context.CarriedBy other) : (statement : Statement) →
    Repeats (statement.code context) (statement.code other) statement.steps
  | print values => by
    simp only [code, steps]
    exact (printCode_repeats carried values).bind_last fun _ => .pure _
  | binding mutable name type value => by
    simp only [code, steps]
    exact (bindingCode_repeats carried mutable name type value).bind_last fun _ => .pure _
  | set target operator value => by
    simp only [code, steps]
    exact (setCode_repeats carried target operator value).bind_last fun _ => .pure _
  | run term => by
    simp only [code, steps]
    exact (term.code_repeats carried.signatures .value).bind_last fun _ => .pure _
  | returning value => by
    simp only [code, steps]
    exact (returningCode_repeats carried value).bind_last fun _ => .pure _
  | breaking => by
    simp only [code, steps]
    exact (jumpCode_repeats "break").bind_last fun _ => .pure _
  | continuing => by
    simp only [code, steps]
    exact (jumpCode_repeats "continue").bind_last fun _ => .pure _
  | whileLoop condition body => by
    simp only [code, steps]
    have inner := inBody_repeats (listCode_repeats carried body)
    have round := (condition.code_repeats carried.signatures .value).bind fun test =>
      inner.bind_last fun block => Repeats.pure (test, block)
    refine round.inLoop.bind_last fun _ => ?_
    split <;> exact .pure _
  | forLoop name range body => by
    simp only [code, steps]
    refine (rangeCode_repeats carried range).bind_answer fun (header, borrowed) _ _ ranged => ?_
    cases rangeCode_borrows ranged
    have inner := (Repeats.declare name (.loopItem range.borrows)).bind fun _ =>
      inBody_repeats (listCode_repeats carried body)
    exact rounds_repeats (Name.code name) _ inner.inLoop
  | ifBlock branches otherwise => by
    simp only [code, steps]
    refine (branchCodes_repeats carried branches).bind fun _ => ?_
    exact (defaultCode_repeats carried otherwise).bind_last fun _ => .pure _
  | matchBlock subject arms otherwise => by
    simp only [code, steps]
    refine (subjectCode_repeats carried subject).bind fun _ => ?_
    refine (armCodes_repeats carried arms).bind fun _ => ?_
    exact (defaultCode_repeats carried otherwise).bind_last fun _ => .pure _

theorem listCode_repeats (carried : context.CarriedBy other) : (statements : List Statement) →
    Repeats (listCode context statements) (listCode other statements) (bodySteps statements)
  | [] => .pure _
  | statement :: rest => by
    simp only [listCode, bodySteps]
    refine (code_repeats carried statement).bind fun _ => ?_
    exact (listCode_repeats carried rest).bind_last fun _ => .pure _

theorem branchCodes_repeats (carried : context.CarriedBy other) : (branches : List (Expr × List Statement)) →
    Repeats (branchCodes context branches) (branchCodes other branches) (branchSteps branches)
  | [] => .pure _
  | (condition, body) :: rest => by
    simp only [branchCodes, branchSteps]
    refine (condition.code_repeats carried.signatures .value).bind fun _ => ?_
    refine (inBody_repeats (listCode_repeats carried body)).bind fun _ => ?_
    exact (branchCodes_repeats carried rest).bind_last fun _ => .pure _

theorem armCodes_repeats (carried : context.CarriedBy other) : (arms : List (List Expr × List Statement)) →
    Repeats (armCodes context arms) (armCodes other arms) (armSteps arms)
  | [] => .pure _
  | (values, body) :: rest => by
    simp only [armCodes, armSteps]
    refine (Repeats.mapM values fun value _ => testCode_repeats carried value).bind fun _ => ?_
    refine (inBody_repeats (listCode_repeats carried body)).bind fun _ => ?_
    exact (armCodes_repeats carried rest).bind_last fun _ => .pure _

theorem defaultCode_repeats (carried : context.CarriedBy other) : (otherwise : Option (List Statement)) →
    Repeats (defaultCode context otherwise) (defaultCode other otherwise) (defaultSteps otherwise)
  | none => .pure _
  | some body => by
    simp only [defaultCode, defaultSteps]
    exact (inBody_repeats (listCode_repeats carried body)).map _

end

theorem code_performs (context : BodyContext) (statement : Statement) :
    Performs (statement.code context) statement.steps :=
  (code_repeats (.refl context) statement).performs

end Statement
end Lowering
