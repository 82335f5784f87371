import Lowering.Proofs.Instances
import Lowering.Proofs.ScopeGrowth

/-! Which declarations are in force at each place of a text. The text says so by its nesting alone:
what is declared in a block holds for the rest of that block, and what follows the block does not
know of it. Going through the steps of the text with a stack of blocks comes to the same. -/

namespace Lowering

/-- The declarations in force at a place of the text, numbered in the order of the text, and the
number of loops around the place. -/
structure Environment extends Instances where
  loops : Nat
deriving DecidableEq, Repr

namespace Step

def isDeclaration : Step → Bool
  | declare _ _ => true
  | _ => false

/-- The step stands for something written at one place of the text, not for the bounds of a block. -/
def isOccurrence : Step → Bool
  | declare _ _ | use _ | jump _ => true
  | _ => false

end Step

namespace Environment

def initial : Environment :=
  ⟨.initial, 0⟩

def nest (env : Environment) : Environment :=
  { env with toInstances := env.openBlock }

def nestLoop (env : Environment) : Environment :=
  { env.nest with loops := env.loops + 1 }

def bind (env : Environment) (name : String) (origin : Origin) : Environment :=
  { env with toInstances := env.declare name origin }

/-- The environment behind a part of the text of which nothing remains in force. -/
def skip (env : Environment) (steps : List Step) : Environment :=
  { env with next := env.next + steps.countP Step.isDeclaration }

/-- What is written at one place. -/
def here (env : Environment) (steps : List Step) : List (Environment × Step) :=
  steps.map (env, ·)

end Environment

namespace Statement

/-- The environment behind a statement. Only the declaration of a variable changes it. -/
def past (env : Environment) : Statement → Environment
  | binding mutable name _ _ => env.bind name (.declared mutable)
  | other => env.skip other.steps

mutual

/-- Everything in a statement that has to do with the variables or the loops around it, with the
environment of its place. A variable does not yet hold in its own initialiser, nor that of a
for loop in the loop's range. -/
def occurrences (env : Environment) : Statement → List (Environment × Step)
  | print values => env.here ((print values).uses.map .use)
  | binding mutable name _ value => env.here (value.steps ++ [.declare name (.declared mutable)])
  | set target operator value => env.here ((set target operator value).uses.map .use)
  | run term => env.here term.steps
  | returning value => env.here ((returning value).uses.map .use)
  | breaking => env.here [.jump "break"]
  | continuing => env.here [.jump "continue"]
  | whileLoop condition body => env.nestLoop.here condition.steps ++ bodyOccurrences env.nestLoop.nest body
  | forLoop name range body =>
    env.here (range.uses.map .use) ++ (env.nestLoop.here [.declare name (.loopItem range.borrows)]
      ++ bodyOccurrences (env.nestLoop.bind name (.loopItem range.borrows)).nest body)
  | ifBlock branches otherwise =>
    branchOccurrences env branches ++ defaultOccurrences (env.skip (branchSteps branches)) otherwise
  | matchBlock subject arms otherwise =>
    env.here subject.steps ++ (armOccurrences env arms
      ++ defaultOccurrences (env.skip (armSteps arms)) otherwise)

def bodyOccurrences (env : Environment) : List Statement → List (Environment × Step)
  | [] => []
  | statement :: rest => occurrences env statement ++ bodyOccurrences (statement.past env) rest

def branchOccurrences (env : Environment) : List (Expr × List Statement) → List (Environment × Step)
  | [] => []
  | (condition, body) :: rest =>
    env.here condition.steps ++ (bodyOccurrences env.nest body ++ branchOccurrences (env.skip (bodySteps body)) rest)

def armOccurrences (env : Environment) : List (List Expr × List Statement) → List (Environment × Step)
  | [] => []
  | (values, body) :: rest =>
    env.here (values.flatMap Expr.steps)
      ++ (bodyOccurrences env.nest body ++ armOccurrences (env.skip (bodySteps body)) rest)

def defaultOccurrences (env : Environment) : Option (List Statement) → List (Environment × Step)
  | none => []
  | some body => bodyOccurrences env.nest body

end
end Statement

namespace Environment

/-- The environment as a stack of blocks, changed step by step. -/
def step (env : Environment) : Step → Environment
  | .openBlock => env.nest
  | .openLoop => env.nestLoop
  | .closeBlock => { env with toInstances := env.closeBlock }
  | .closeLoop => { env with toInstances := env.closeBlock, loops := env.loops - 1 }
  | .declare name origin => env.bind name origin
  | .use _ | .jump _ => env

def run (env : Environment) (steps : List Step) : Environment :=
  steps.foldl step env

/-- What the steps come by, each time with the stack as it is then. -/
def trail : Environment → List Step → List (Environment × Step)
  | _, [] => []
  | env, step :: rest => (if step.isOccurrence then [(env, step)] else []) ++ trail (env.step step) rest

theorem trail_append (env : Environment) (first rest : List Step) :
    env.trail (first ++ rest) = env.trail first ++ (env.run first).trail rest := by
  induction first generalizing env with
  | nil => rfl
  | cons step first ih => simp only [List.cons_append, trail, ih, List.append_assoc, run, List.foldl_cons]

theorem trail_uses (env : Environment) (uses : List Use) : env.trail (uses.map .use) = env.here (uses.map .use) := by
  induction uses with
  | nil => rfl
  | cons use rest ih => exact congrArg ((env, .use use) :: ·) ih

theorem run_uses (env : Environment) (uses : List Use) : env.run (uses.map .use) = env := by
  induction uses with
  | nil => rfl
  | cons use rest ih => exact ih

theorem run_append (env : Environment) (first rest : List Step) :
    env.run (first ++ rest) = (env.run first).run rest :=
  List.foldl_append

private theorem skip_append (env : Environment) (first rest : List Step) :
    env.skip (first ++ rest) = (env.skip first).skip rest := by
  simp only [skip, List.countP_append, Nat.add_assoc]

/-- Nothing of what lies between two bounds remains in force behind them but its count. -/
private theorem run_enclosed {opening closing : Step} {inner rest : List Step} {env within : Environment}
    {names : List String} (entered : (env.step opening).run inner = within)
    (left : within.step closing = env.skip inner) (counted : env.skip (opening :: inner ++ [closing]) = env.skip inner)
    (later : ∃ new, new.map Prod.fst = names ∧ (env.skip inner).run rest =
      { (env.skip inner).skip rest with inner := new ++ (env.skip inner).inner }) :
    ∃ new, new.map Prod.fst = names ∧ env.run (opening :: inner ++ closing :: rest) =
      { env.skip (opening :: inner ++ closing :: rest) with inner := new ++ env.inner } := by
  have ran : env.run (opening :: inner ++ [closing]) = env.skip inner := by
    rw [run_append, ← left, ← entered]
    rfl
  rw [← List.singleton_append (l := rest), ← List.append_assoc, run_append, skip_append, ran, counted]
  exact later

/-- Closed steps leave behind what they declare, and count what they have come by. -/
theorem run_closed {names : List String} {steps : List Step} (closed : Closed names steps) (env : Environment) :
    ∃ new, new.map Prod.fst = names ∧ env.run steps = { env.skip steps with inner := new ++ env.inner } := by
  induction closed generalizing env with
  | nil => exact ⟨[], rfl, rfl⟩
  | use use _ ih => exact ih env
  | jump keyword _ ih => exact ih env
  | declare name origin _ ih =>
    obtain ⟨new, named, ran⟩ := ih (env.bind name origin)
    refine ⟨new ++ [(name, ⟨env.next, origin⟩)], by simp [named], ran.trans ?_⟩
    simp [skip, bind, Instances.declare, Step.isDeclaration, List.countP_cons, Nat.add_comm, Nat.add_left_comm]
  | @block _ _ inner _ _ _ ihInner ihRest =>
    obtain ⟨_, _, entered⟩ := ihInner env.nest
    exact run_enclosed entered rfl (by simp [skip, Step.isDeclaration]) (ihRest (env.skip inner))
  | @loop _ _ inner _ _ _ ihInner ihRest =>
    obtain ⟨_, _, entered⟩ := ihInner env.nestLoop
    exact run_enclosed entered rfl (by simp [skip, Step.isDeclaration]) (ihRest (env.skip inner))

theorem run_idle {steps : List Step} (closed : Closed [] steps) (env : Environment) : env.run steps = env.skip steps := by
  obtain ⟨new, named, ran⟩ := run_closed closed env
  cases List.map_eq_nil_iff.mp named
  exact ran

theorem skip_block (inner : List Step) (env : Environment) : env.skip (Statement.blockSteps inner) = env.skip inner := by
  simp [skip, Statement.blockSteps, Step.isDeclaration]

theorem trail_block (inner : List Step) (env : Environment) :
    env.trail (Statement.blockSteps inner) = env.nest.trail inner := by
  rw [Statement.blockSteps, trail_append]
  exact List.append_nil _

theorem trail_round (head inner : List Step) (env : Environment) :
    env.trail (Statement.roundSteps head inner) =
      env.nestLoop.trail head ++ (env.nestLoop.run head).nest.trail inner := by
  rw [← trail_block, ← trail_append env.nestLoop, Statement.roundSteps, trail_append env]
  exact List.append_nil _

end Environment

namespace Statement

theorem run_steps (env : Environment) (statement : Statement) : env.run statement.steps = statement.past env := by
  have closed := statement.steps_closed
  cases statement with
  | binding mutable name type value =>
    simp only [steps, past, Environment.run_append]
    rw [Expr.steps, Environment.run_uses]
    rfl
  | _ => exact Environment.run_idle closed env

theorem run_body (env : Environment) (statements : List Statement) :
    env.run (blockSteps (bodySteps statements)) = env.skip (bodySteps statements) := by
  rw [Environment.run_idle (block_closed statements), Environment.skip_block]

mutual

/-- The steps of a statement come by what its text holds, in the environments of the text. -/
theorem trail_steps (env : Environment) : (statement : Statement) → env.trail statement.steps = statement.occurrences env
  | print values => Environment.trail_uses env _
  | binding mutable name type value => by
    simp only [steps, occurrences, Environment.trail_append]
    rw [Expr.steps, Environment.trail_uses, Environment.run_uses, Environment.here, Environment.here, List.map_append]
    rfl
  | set target operator value => Environment.trail_uses env _
  | run term => Environment.trail_uses env _
  | returning value => Environment.trail_uses env _
  | breaking => rfl
  | continuing => rfl
  | whileLoop condition body => by
    simp only [steps, occurrences, Environment.trail_round]
    rw [Expr.steps, Environment.trail_uses, Environment.run_uses, trail_body]
  | forLoop name range body => by
    simp only [steps, occurrences, Environment.trail_append, Environment.trail_round]
    rw [Environment.trail_uses, Environment.run_uses, ← trail_body]
    rfl
  | ifBlock branches otherwise => by
    simp only [steps, occurrences, Environment.trail_append]
    rw [Environment.run_idle (branchSteps_closed branches), trail_branches, trail_default]
  | matchBlock subject arms otherwise => by
    simp only [steps, occurrences, Environment.trail_append]
    rw [Expr.steps, Environment.trail_uses, Environment.run_uses, Environment.run_idle (armSteps_closed arms),
      trail_arms, trail_default]

theorem trail_body (env : Environment) : (statements : List Statement) →
    env.trail (bodySteps statements) = bodyOccurrences env statements
  | [] => rfl
  | statement :: rest => by
    rw [bodySteps, bodyOccurrences, Environment.trail_append, run_steps, trail_steps env statement,
      trail_body (statement.past env) rest]

theorem trail_branches (env : Environment) : (branches : List (Expr × List Statement)) →
    env.trail (branchSteps branches) = branchOccurrences env branches
  | [] => rfl
  | (condition, body) :: rest => by
    simp only [branchSteps, branchOccurrences, Environment.trail_append]
    rw [Expr.steps, Environment.trail_uses, Environment.run_uses, Environment.trail_block, run_body, trail_body,
      trail_branches]

theorem trail_arms (env : Environment) : (arms : List (List Expr × List Statement)) →
    env.trail (armSteps arms) = armOccurrences env arms
  | [] => rfl
  | (values, body) :: rest => by
    simp only [armSteps, armOccurrences, Environment.trail_append, testSteps_eq]
    rw [Environment.trail_uses, Environment.run_uses, Environment.trail_block, run_body, trail_body, trail_arms]

theorem trail_default (env : Environment) : (otherwise : Option (List Statement)) →
    env.trail (defaultSteps otherwise) = defaultOccurrences env otherwise
  | none => rfl
  | some body => by
    rw [defaultSteps, defaultOccurrences, Environment.trail_block, trail_body]

end
end Statement
end Lowering
