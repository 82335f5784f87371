import Lowering.Proofs.StatementSteps

/-! The paths on which code may run, as the steps that they take. Tests may come out either way,
loops may take any number of rounds, and a jump cuts the path short up to where it leads. Blocks
are closed on the way however a path leaves them. -/

namespace Lowering

/-- How a path through some code comes to its end. -/
inductive Ending where
  | normal
  | broke
  | continued
  | returned (value : Option Expr)

namespace Ending

def jumps : Ending → Bool
  | broke | continued => true
  | normal | returned _ => false

/-- After a round of a loop that ends so the loop goes on. -/
def goesOn : Ending → Bool
  | normal | continued => true
  | broke | returned _ => false

/-- The ending of a loop whose last round has ended so. -/
def pastLoop : Ending → Ending
  | broke => normal
  | ending => ending

end Ending

/-- What decides between alternatives. -/
inductive Test where
  | condition (expr : Expr)
  /-- The value is compared with the subject of a match. -/
  | value (expr : Expr)

/-- What every round of a loop begins with. -/
inductive RoundHead where
  | condition (expr : Expr)
  | item (name : String) (borrowed : Bool)

namespace Test

def expr : Test → Expr
  | condition expr | value expr => expr

/-- A comparison may fail whatever its value is. -/
def MayFail (fails : Expr → Prop) : Test → Prop
  | condition expr => fails expr
  | value _ => True

def stepsOf (tests : List Test) : List Step :=
  tests.flatMap fun test => test.expr.steps

end Test

def RoundHead.steps : RoundHead → List Step
  | condition expr => expr.steps
  | item name borrowed => [.declare name (.loopItem borrowed)]

/-- Code that a path may lead through. -/
inductive Part where
  | statement (statement : Statement)
  | body (statements : List Statement)
  /-- Alternatives of which the first that passes a test is taken. -/
  | choice (alternatives : List (List Test × List Statement)) (otherwise : Option (List Statement))
  /-- A loop, once it is known what it runs through. -/
  | rounds (head : RoundHead) (body : List Statement)

namespace Part

def ofBranches (branches : List (Expr × List Statement)) (otherwise : Option (List Statement)) : Part :=
  choice (branches.map fun (condition, inner) => ([.condition condition], inner)) otherwise

def ofArms (arms : List (List Expr × List Statement)) (otherwise : Option (List Statement)) : Part :=
  choice (arms.map fun (values, inner) => (values.map .value, inner)) otherwise

def steps : Part → List Step
  | statement code => code.steps
  | body statements => Statement.bodySteps statements
  | choice alternatives otherwise =>
    Statement.armSteps (alternatives.map fun (tests, inner) => (tests.map Test.expr, inner))
      ++ Statement.defaultSteps otherwise
  | rounds head inner => Statement.roundSteps head.steps (Statement.bodySteps inner)

end Part

/-- The statement neither jumps nor holds other statements. -/
def Statement.isPlain : Statement → Bool
  | print _ | binding _ _ _ _ | set _ _ _ | run _ => true
  | _ => false

open Statement (blockSteps roundSteps)

/-- The steps of one path through some code and how it ends. Only conditions of a certain kind
may come out false. -/
inductive Path (fails : Expr → Prop) : Part → List Step → Ending → Prop where
  | plain {statement} (plain : statement.isPlain = true) :
    Path fails (.statement statement) statement.steps .normal
  | returning (value) :
    Path fails (.statement (.returning value)) (Statement.returning value).steps (.returned value)
  | breaking : Path fails (.statement .breaking) Statement.breaking.steps .broke
  | continuing : Path fails (.statement .continuing) Statement.continuing.steps .continued
  | whileLoop {condition body steps ending} (rounds : Path fails (.rounds (.condition condition) body) steps ending) :
    Path fails (.statement (.whileLoop condition body)) steps ending
  | forLoop {name range body steps ending} (rounds : Path fails (.rounds (.item name range.borrows) body) steps ending) :
    Path fails (.statement (.forLoop name range body)) (range.uses.map .use ++ steps) ending
  | ifBlock {branches otherwise steps ending} (choice : Path fails (.ofBranches branches otherwise) steps ending) :
    Path fails (.statement (.ifBlock branches otherwise)) steps ending
  | matchBlock {subject arms otherwise steps ending} (choice : Path fails (.ofArms arms otherwise) steps ending) :
    Path fails (.statement (.matchBlock subject arms otherwise)) (subject.steps ++ steps) ending
  | done : Path fails (.body []) [] .normal
  | next {statement rest first later ending} (begins : Path fails (.statement statement) first .normal)
    (continues : Path fails (.body rest) later ending) :
    Path fails (.body (statement :: rest)) (first ++ later) ending
  | cut {statement rest steps ending} (begins : Path fails (.statement statement) steps ending)
    (short : ending ≠ .normal) : Path fails (.body (statement :: rest)) steps ending
  /-- The tests before the one that holds have failed, and those behind it are not looked at. -/
  | taken {failed holds others body rest otherwise inner ending} (failing : ∀ test ∈ failed, test.MayFail fails)
    (inside : Path fails (.body body) inner ending) :
    Path fails (.choice ((failed ++ holds :: others, body) :: rest) otherwise)
      (Test.stepsOf (failed ++ [holds]) ++ blockSteps inner) ending
  | passed {tests body rest otherwise steps ending} (failing : ∀ test ∈ tests, test.MayFail fails)
    (later : Path fails (.choice rest otherwise) steps ending) :
    Path fails (.choice ((tests, body) :: rest) otherwise) (Test.stepsOf tests ++ steps) ending
  | default {body inner ending} (inside : Path fails (.body body) inner ending) :
    Path fails (.choice [] (some body)) (blockSteps inner) ending
  | skipped : Path fails (.choice [] none) [] .normal
  | refused {condition body} (refused : fails condition) :
    Path fails (.rounds (.condition condition) body) (.openLoop :: condition.steps ++ [.closeLoop]) .normal
  | exhausted {name borrowed body} : Path fails (.rounds (.item name borrowed) body) [] .normal
  | round {head body inner ending later last} (inside : Path fails (.body body) inner ending)
    (on : ending.goesOn = true) (continues : Path fails (.rounds head body) later last) :
    Path fails (.rounds head body) (roundSteps head.steps inner ++ later) last
  | left {head body inner ending} (inside : Path fails (.body body) inner ending)
    (off : ending.goesOn = false) :
    Path fails (.rounds head body) (roundSteps head.steps inner) ending.pastLoop

namespace Path

variable {fails : Expr → Prop}

private theorem pass_all (always : ∀ condition, fails condition) {otherwise : Option (List Statement)}
    {steps : List Step} {ending : Ending} (last : Path fails (.choice [] otherwise) steps ending)
    (alternatives : List (List Test × List Statement)) :
    ∃ steps ending, Path fails (.choice alternatives otherwise) steps ending := by
  induction alternatives with
  | nil => exact ⟨steps, ending, last⟩
  | cons alternative rest ih =>
    obtain ⟨steps, ending, later⟩ := ih
    refine ⟨_, ending, .passed (fun test _ => ?_) later⟩
    cases test with
    | condition expr => exact always expr
    | value expr => trivial

mutual

/-- From the head of every statement some path leads to an end, if conditions may fail. -/
theorem exists_of_statement (always : ∀ condition, fails condition) : (statement : Statement) →
    ∃ steps ending, Path fails (.statement statement) steps ending
  | .print _ | .binding _ _ _ _ | .set _ _ _ | .run _ => ⟨_, _, .plain rfl⟩
  | .returning value => ⟨_, _, .returning value⟩
  | .breaking => ⟨_, _, .breaking⟩
  | .continuing => ⟨_, _, .continuing⟩
  | .whileLoop condition _ => ⟨_, _, .whileLoop (.refused (always condition))⟩
  | .forLoop _ _ _ => ⟨_, _, .forLoop .exhausted⟩
  | .ifBlock branches otherwise => by
    obtain ⟨_, _, last⟩ := exists_of_default always otherwise
    obtain ⟨_, _, choice⟩ := pass_all always last _
    exact ⟨_, _, .ifBlock choice⟩
  | .matchBlock subject arms otherwise => by
    obtain ⟨_, _, last⟩ := exists_of_default always otherwise
    obtain ⟨_, _, choice⟩ := pass_all always last _
    exact ⟨_, _, .matchBlock choice⟩

theorem exists_of_body (always : ∀ condition, fails condition) : (statements : List Statement) →
    ∃ steps ending, Path fails (.body statements) steps ending
  | [] => ⟨_, _, .done⟩
  | statement :: rest => by
    obtain ⟨_, ending, begins⟩ := exists_of_statement always statement
    obtain ⟨_, _, continues⟩ := exists_of_body always rest
    cases ending with
    | normal => exact ⟨_, _, .next begins continues⟩
    | _ => exact ⟨_, _, .cut begins nofun⟩

theorem exists_of_default (always : ∀ condition, fails condition) : (otherwise : Option (List Statement)) →
    ∃ steps ending, Path fails (.choice [] otherwise) steps ending
  | none => ⟨_, _, .skipped⟩
  | some body => by
    obtain ⟨_, _, inside⟩ := exists_of_body always body
    exact ⟨_, _, .default inside⟩

end

end Path
end Lowering
