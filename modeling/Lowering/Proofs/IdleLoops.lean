import Lowering.Proofs.AcceptedBodies
import Lowering.Proofs.FrameLaw

/-! Loops give nothing away. Where no variable is declared in more loops than are open, and no scope
of a function that is written out is any other, the rounds of a loop leave the scope exactly as it
was, moves included, even where they are refused half-way. -/

namespace Lowering

/-- The work with its scope changed. -/
def Work.withScope (work : Work) (step : Scope → Scope) : Work :=
  { work with scope := step work.scope }

open Lowering.Action (Leaves)
open Lowering.Scope (Keeps Extends)

theorem Action.Leaves.bounded {action : Action α} (leaves : Leaves Extends action) {before after : Work}
    {answer : Except Error α} (ran : action before = (answer, after)) (bounded : before.scope.Bounded) :
    after.scope.Bounded := by
  obtain ⟨_, grown⟩ := leaves before
  rw [ran] at grown
  exact grown.bounded bounded

theorem Action.inLoop_idle {action : Action α} (leaves : Leaves Extends action) {before : Work}
    (bounded : before.scope.Bounded) : (inLoop action before).2.scope = before.scope := by
  obtain ⟨_, grown⟩ := leaves { before with scope := before.scope.openLoop }
  exact Scope.closeLoop_eq bounded grown

namespace Statement

variable {context : BodyContext} {before : Work}

theorem whileLoop_idle (condition : Expr) (body : List Statement) (bounded : before.scope.Bounded) :
    ((whileLoop condition body).code context before).2.scope = before.scope := by
  simp only [code]
  rw [Leaves.scope_bind fun _ => by split <;> exact .pure _]
  exact Action.inLoop_idle (whileRound_leaves context condition (listCode_extends context body)) bounded

theorem forLoop_idle (name : String) (range : Range) (body : List Statement) (bounded : before.scope.Bounded) :
    ((forLoop name range body).code context before).2.scope = (rangeCode context range before).2.scope := by
  have keeps := rangeCode_leaves context range before
  simp only [code]
  cases ran : rangeCode context range before with
  | mk answer ranged =>
    rw [ran] at keeps
    cases answer with
    | error error => rw [Action.bind_of_error ran]
    | ok header =>
      rw [Action.bind_of_ok ran,
        Leaves.scope_bind fun _ => (Leaves.lift _).bind fun _ => (Leaves.lift _).bind fun _ => .pure _]
      exact Action.inLoop_idle (forRound_leaves name header.2 (listCode_extends context body)) (keeps.bounded bounded)

/-- A while loop that was written out can be written out again behind itself. -/
theorem whileLoop_again {condition : Expr} {body : List Statement} {written : StatementCode} {after : Work}
    (bounded : before.scope.Bounded) (ran : (whileLoop condition body).code context before = (.ok written, after))
    {again : Work} (same : again.scope = after.scope) :
    ∃ finished, (whileLoop condition body).code context again = (.ok written, finished) := by
  have idle : ((whileLoop condition body).code context before).2.scope = before.scope :=
    whileLoop_idle condition body bounded
  rw [ran] at idle
  obtain ⟨taken, answers⟩ := code_repeats (.refl context) _ _ _ _ ran
  rw [← idle, ← same] at taken answers
  obtain ⟨finished, repeated, _⟩ := answers again again.scope (.refl _) taken
  exact ⟨finished, repeated⟩

/-- The blocks of a statement, each with the work in which it is opened. -/
inductive Opens (context : BodyContext) : Statement → Work → List Statement → Work → Prop where
  | round {condition body before test tested} :
    condition.code context.signatures .value (before.withScope Scope.openLoop) = (.ok test, tested) →
    Opens context (.whileLoop condition body) before body tested
  | item {name range body before header ranged declared} :
    rangeCode context range before = (.ok header, ranged) →
    Action.declare name (.loopItem header.2) (ranged.withScope Scope.openLoop) = (.ok (), declared) →
    Opens context (.forLoop name range body) before body declared
  | branch {earlier condition body later otherwise before choice tried test tested} :
    branchCodes context earlier before = (.ok choice, tried) →
    condition.code context.signatures .value tried = (.ok test, tested) →
    Opens context (.ifBlock (earlier ++ (condition, body) :: later) otherwise) before body tested
  | elseBranch {branches body before choice tried} :
    branchCodes context branches before = (.ok choice, tried) →
    Opens context (.ifBlock branches (some body)) before body tried
  | arm {subject earlier values body later otherwise before text looked choice tried tests tested} :
    subjectCode context subject before = (.ok text, looked) →
    armCodes context earlier looked = (.ok choice, tried) →
    values.mapM (testCode context) tried = (.ok tests, tested) →
    Opens context (.matchBlock subject (earlier ++ (values, body) :: later) otherwise) before body tested
  | elseArm {subject arms body before text looked choice tried} :
    subjectCode context subject before = (.ok text, looked) →
    armCodes context arms looked = (.ok choice, tried) →
    Opens context (.matchBlock subject arms (some body)) before body tried

/-- The work in which some statement starts to be written out, among statements that follow each
other or in the blocks within them. -/
inductive Reaches (context : BodyContext) : List Statement → Work → Statement → Work → Prop where
  | here {statement rest before} : Reaches context (statement :: rest) before statement before
  | later {first rest before written middle inner start} :
    first.code context before = (.ok written, middle) → Reaches context rest middle inner start →
    Reaches context (first :: rest) before inner start
  | within {first rest before body around inner start} :
    Opens context first before body around → Reaches context body (around.withScope Scope.openBlock) inner start →
    Reaches context (first :: rest) before inner start

theorem Opens.bounded {statement : Statement} {body : List Statement} {around : Work}
    (opens : Opens context statement before body around) (bounded : before.scope.Bounded) : around.scope.Bounded := by
  cases opens with
  | round tested => exact (Expr.code_leaves _ _ _).toExtends.bounded tested (Scope.openLoop_bounded bounded)
  | item ranged declared =>
    have bounded := (rangeCode_leaves _ _).toExtends.bounded ranged bounded
    exact (declare_extends _ _).bounded declared (Scope.openLoop_bounded bounded)
  | branch tried tested =>
    have bounded := (branchCodes_leaves _ _).toExtends.bounded tried bounded
    exact (Expr.code_leaves _ _ _).toExtends.bounded tested bounded
  | elseBranch tried => exact (branchCodes_leaves _ _).toExtends.bounded tried bounded
  | arm looked tried tested =>
    have bounded := (subjectCode_leaves _ _).toExtends.bounded looked bounded
    have bounded := (armCodes_leaves _ _).toExtends.bounded tried bounded
    exact (Leaves.mapM fun value => testCode_leaves context value).toExtends.bounded tested bounded
  | elseArm looked tried =>
    have bounded := (subjectCode_leaves _ _).toExtends.bounded looked bounded
    exact (armCodes_leaves _ _).toExtends.bounded tried bounded

theorem Reaches.bounded {statements : List Statement} {inner : Statement} {start : Work}
    (reaches : Reaches context statements before inner start) (bounded : before.scope.Bounded) :
    start.scope.Bounded := by
  induction reaches with
  | here => exact bounded
  | later ran _ ih =>
    exact ih ((code_extends _ _).bounded ran bounded)
  | within opens _ ih => exact ih (Scope.openBlock_bounded (opens.bounded bounded))

end Statement

namespace Function

/-- The work in which some statement starts to be written out when a function is. -/
def Reaches (signatures : Signatures) (definition : Definition) (inner : Statement) (start : Work) : Prop :=
  ∃ before declared statements read, before.scope = .initial ∧
    declareParameters definition.parameters before = (.ok (), declared) ∧
    readBody definition declared = (.ok statements, read) ∧
    Statement.Reaches (definition.context signatures) statements read inner start

theorem declareParameters_extends (parameters : List Parameter) : Leaves Extends (declareParameters parameters) := by
  unfold declareParameters
  induction parameters with
  | nil => exact .pure _
  | cons parameter rest ih => exact (Statement.declare_extends _ _).bind fun _ => ih

theorem Reaches.bounded {signatures : Signatures} {definition : Definition} {inner : Statement} {start : Work}
    (reaches : Reaches signatures definition inner start) : start.scope.Bounded := by
  obtain ⟨before, declared, statements, read, initial, parameters, body, inside⟩ := reaches
  apply inside.bounded
  rw [(readBody_ok body).2]
  apply (declareParameters_extends _).bounded parameters
  rw [initial]
  exact Scope.initial_bounded

end Function

/-- Loops give nothing away. In the scopes in which statements of a function are written out, no
variable is declared in more loops than are open. There a while loop leaves the scope as it was,
also where it is refused, and once written out it comes out the same when it is written out again;
a for loop leaves what its range leaves. -/
theorem loops_give_nothing_away (signatures : Signatures) :
    (∀ definition inner start, Function.Reaches signatures definition inner start → start.scope.Bounded) ∧
    ∀ hasResult before, before.scope.Bounded →
      let context : BodyContext := ⟨signatures, hasResult⟩
      (∀ condition body, ((Statement.whileLoop condition body).code context before).2.scope = before.scope) ∧
      (∀ name range body, ((Statement.forLoop name range body).code context before).2.scope =
        (Statement.rangeCode context range before).2.scope) ∧
      ∀ condition body written after, (Statement.whileLoop condition body).code context before = (.ok written, after) →
        ∀ again : Work, again.scope = after.scope →
          ∃ finished, (Statement.whileLoop condition body).code context again = (.ok written, finished) := by
  refine ⟨fun _ _ _ reaches => reaches.bounded, fun hasResult before bounded => ⟨?_, ?_, ?_⟩⟩
  · exact fun condition body => Statement.whileLoop_idle condition body bounded
  · exact fun name range body => Statement.forLoop_idle name range body bounded
  · exact fun _ _ _ _ ran _ same => Statement.whileLoop_again bounded ran same

section Sample

private def opening : Statement :=
  .binding true "total" none (.identifier "items")

private def sampleBody : List Statement :=
  [opening,
    .ifBlock [(.identifier "total",
      [.set (.identifier "total") .assign (.call "take" [(.move, .identifier "items")])])] none,
    .returning (some (.identifier "total"))]

/-- The sample's one parameter is declared, and its body has been read. -/
private def receiving : Work :=
  ⟨⟨[("items", ⟨.parameter .move, false, 0⟩)], [], 0⟩,
    ["var_statement", "if_block", "set_statement", "return_statement"].map .statement⟩

private theorem reached_receiving : Function.Reaches .taking .sample opening receiving := by
  refine ⟨⟨.initial, []⟩, ⟨receiving.scope, []⟩, sampleBody, receiving, rfl, ?_, ?_, .here⟩ <;> cbv

/-- Every round gives a duplicate away. -/
private def spending : Statement :=
  .whileLoop (.literal ⟨.bool, "true"⟩) [
    .binding true "spent" none (.identifier "items"),
    .run (.call "take" [(.move, .identifier "spent")])]

private theorem spending_written : (spending.code ⟨.taking, true⟩ receiving).1 = .ok ⟨.whileLoop,
    "loop \x7b\n    let mut sn_spent = sn_items.clone();\n    sn_take(sn_spent);\n\x7d\n", false⟩ := by
  cbv

theorem sample_gives_nothing_away : ∃ start written, Function.Reaches .taking .sample opening start ∧
    (spending.code ⟨.taking, true⟩ start).1 = .ok written ∧
    (spending.code ⟨.taking, true⟩ start).2.scope = start.scope ∧
    (spending.code ⟨.taking, true⟩ (spending.code ⟨.taking, true⟩ start).2).1 = .ok written := by
  obtain ⟨reached, loops⟩ := loops_give_nothing_away .taking
  obtain ⟨whiles, _, again⟩ := loops true receiving (reached _ _ _ reached_receiving)
  obtain ⟨_, same⟩ := again _ _ _ _ (Prod.ext spending_written rfl) (spending.code ⟨.taking, true⟩ receiving).2 rfl
  exact ⟨receiving, _, reached_receiving, spending_written, whiles _ _, congrArg Prod.fst same⟩

end Sample

end Lowering
