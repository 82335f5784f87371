import Lowering.Proofs.AcceptedBodies
import Lowering.Proofs.LexicalScoping

/-! Names mean what the text says. The scope in which a function is written out is a stack that is
changed on the way, but whenever it is asked for a name it shows the declarations that are in
force by the nesting of the text, each in its place. -/

namespace Lowering

/-- The variable is one of this declaration. -/
def Binding.Shows (binding : Binding) (held : Instance) : Prop :=
  binding.origin = held.origin

namespace Scope

/-- What a run of the steps comes by, each time with the scope as it is then. -/
def moments : Scope → List Step → List (Scope × Step)
  | _, [] => []
  | scope, step :: rest =>
    (if step.isOccurrence then [(scope, step)] else []) ++
      match scope.step step with
      | .ok after => moments after rest
      | .error _ => []

/-- The scope holds a variable for every declaration in force, in the same order and blocks. -/
structure Mirrors (scope : Scope) (env : Environment) : Prop where
  loops : scope.loopDepth = env.loops
  blocks : Matched Binding.Shows scope.frames env.blocks

/-- What is found for a name is the variable of the innermost declaration, a new name is new to its
block, and a jump has a loop around it. -/
def Resolves (scope : Scope) (env : Environment) : Step → Prop
  | .use use => ∃ binding held, scope.find? use.name = some binding ∧ env.find? use.name = some held ∧
      binding.Shows held
  | .declare name _ => name ∉ env.inner.map Prod.fst
  | .jump _ => 0 < env.loops
  | _ => True

/-- A moment of the run belongs to an occurrence in the text. -/
structure At (moment : Scope × Step) (occurrence : Environment × Step) : Prop where
  same : moment.2 = occurrence.2
  mirrors : moment.1.Mirrors occurrence.1
  resolves : moment.1.Resolves occurrence.1 occurrence.2

variable {scope after : Scope} {env : Environment} {given : List Instance}

private theorem mirrors_of_agrees (agrees : Agrees scope env.toInstances given) (loops : scope.loopDepth = env.loops) :
    scope.Mirrors env :=
  ⟨loops, agrees.matched.imp fun _ _ values => values.1⟩

theorem Mirrors.resolves {step : Step} (mirrors : scope.Mirrors env) (stepped : scope.step step = .ok after) :
    scope.Resolves env step := by
  cases step with
  | use use =>
    obtain ⟨binding, found, _⟩ := check_ok.mp stepped
    obtain ⟨held, there, origin⟩ := mirrors.blocks.counterpart found
    exact ⟨binding, held, found, there, origin⟩
  | declare name origin =>
    obtain ⟨unused, _⟩ := declare_ok.mp stepped
    obtain ⟨_, blocks⟩ := mirrors
    cases blocks with
    | cons block _ =>
      rcases @Matched.block_lookup _ _ Binding.Shows _ _ block name with ⟨_, missing⟩ | ⟨_, _, there, _⟩
      · exact lookup_eq_none.mp missing
      · cases unused.symm.trans there
  | jump keyword =>
    have inside := (jump_ok.mp stepped).1
    rwa [mirrors.loops] at inside
  | _ => trivial

private theorem step_loops {step : Step} (loops : scope.loopDepth = env.loops) (stepped : scope.step step = .ok after) :
    after.loopDepth = (env.step step).loops := by
  cases step with
  | use use =>
    obtain ⟨_, _, _, _, rfl⟩ := check_ok.mp stepped
    exact (loopDepth_used scope use).trans loops
  | jump keyword =>
    obtain ⟨_, rfl⟩ := jump_ok.mp stepped
    exact loops
  | declare name origin =>
    obtain ⟨_, rfl⟩ := declare_ok.mp stepped
    exact loops
  | openBlock =>
    cases stepped
    exact loops
  | closeBlock =>
    cases stepped
    exact (loopDepth_closeBlock scope).trans loops
  | openLoop =>
    cases stepped
    exact congrArg (· + 1) loops
  | closeLoop =>
    cases stepped
    exact congrArg (· - 1) loops

private theorem step_agrees {step : Step} (agrees : Agrees scope env.toInstances given)
    (stepped : scope.step step = .ok after) : ∃ later, Agrees after (env.step step).toInstances later := by
  cases step with
  | use use =>
    obtain ⟨_, _, _, _, _, _, next⟩ := agrees.check stepped
    exact ⟨_, next⟩
  | _ => exact ⟨given, agrees.step stepped nofun⟩

/-- A run that goes through comes by what the text holds, and finds the environment of the text. -/
theorem moments_at {steps : List Step} (agrees : Agrees scope env.toInstances given)
    (loops : scope.loopDepth = env.loops) (ran : scope.run steps = .ok after) :
    List.Forall₂ At (scope.moments steps) (env.trail steps) := by
  induction steps generalizing scope env given with
  | nil => exact .nil
  | cons step rest ih =>
    obtain ⟨middle, stepped, later⟩ := run_cons.mp ran
    obtain ⟨given, next⟩ := step_agrees agrees stepped
    have mirrors := mirrors_of_agrees agrees loops
    have others := ih next (step_loops loops stepped) later
    simp only [moments, Environment.trail, stepped]
    split
    · exact .cons ⟨rfl, mirrors, mirrors.resolves stepped⟩ others
    · exact others

end Scope

namespace Definition

/-- The environment behind the parameters, which share the block of the body's own statements. -/
def environment (definition : Definition) : Environment :=
  definition.parameters.foldl (fun env parameter => env.bind parameter.name (.parameter parameter.accessor)) .initial

def parameterOccurrences : Environment → List Parameter → List (Environment × Step)
  | _, [] => []
  | env, parameter :: rest =>
    (env, .declare parameter.name (.parameter parameter.accessor))
      :: parameterOccurrences (env.bind parameter.name (.parameter parameter.accessor)) rest

/-- Everything in a function that has to do with variables or loops, in the environment of its place. -/
def occurrences (definition : Definition) (statements : List Statement) : List (Environment × Step) :=
  parameterOccurrences .initial definition.parameters ++ Statement.bodyOccurrences definition.environment statements

theorem run_parameterSteps (definition : Definition) :
    Environment.initial.run definition.parameterSteps = definition.environment :=
  List.foldl_map

theorem trail_parameterSteps (definition : Definition) :
    Environment.initial.trail definition.parameterSteps = parameterOccurrences .initial definition.parameters := by
  unfold parameterSteps
  generalize Environment.initial = env
  induction definition.parameters generalizing env with
  | nil => rfl
  | cons parameter rest ih => exact congrArg (_ :: ·) (ih _)

theorem trail_steps (definition : Definition) (statements : List Statement) :
    Environment.initial.trail (definition.parameterSteps ++ Statement.bodySteps statements) =
      definition.occurrences statements := by
  rw [Environment.trail_append, run_parameterSteps, trail_parameterSteps, Statement.trail_body, occurrences]

/-- Writes out the parameters and the statements of the body in one scope. -/
def codes (signatures : Signatures) (definition : Definition) (statements : List Statement) :
    Action (List StatementCode) := do
  Function.declareParameters definition.parameters
  Function.statementCodes (definition.context signatures) statements

theorem codes_performs (signatures : Signatures) (definition : Definition) (statements : List Statement) :
    (definition.codes signatures statements).Performs (definition.parameterSteps ++ Statement.bodySteps statements) := by
  have body := Function.statementCodes_repeats (.refl (definition.context signatures)) statements
  exact ((Function.declareParameters_repeats definition).bind fun _ => body).performs

end Definition

namespace Function

variable {signatures : Signatures} {definition : Definition}

/-- Whenever a function is written out, its scope is asked for names and jumps exactly where the text
has them, and then it shows the declarations that are in force there. -/
theorem names_resolve_lexically (accepted : (ofDefinition signatures definition).result.isOk = true) :
    ∃ statements, definition.body = .ok statements ∧
      let steps := definition.parameterSteps ++ Statement.bodySteps statements
      (definition.codes signatures statements).Performs steps ∧
      Environment.initial.trail steps = definition.occurrences statements ∧
      List.Forall₂ Scope.At (Scope.initial.moments steps) (definition.occurrences statements) := by
  obtain ⟨statements, accepts⟩ := ofDefinition_accepts accepted
  obtain ⟨after, ran⟩ := accepts.ran
  have text := definition.trail_steps statements
  refine ⟨statements, accepts.read, definition.codes_performs signatures statements, text, ?_⟩
  rw [← text]
  exact Scope.moments_at .initial rfl ran

theorem sample_names_resolve : ∃ statements, Definition.sample.body = .ok statements ∧
    List.Forall₂ Scope.At
      (Scope.initial.moments (Definition.sample.parameterSteps ++ Statement.bodySteps statements))
      (Definition.sample.occurrences statements) := by
  obtain ⟨statements, read, _, _, moments⟩ := names_resolve_lexically Definition.sample_accepted
  exact ⟨statements, read, moments⟩

end Function
end Lowering
