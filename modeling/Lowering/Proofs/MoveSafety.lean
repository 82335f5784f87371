import Lowering.Proofs.AcceptedBodies
import Lowering.Proofs.Instances
import Lowering.Proofs.PathRuns

/-! No value is used after it was given away. The text of a function is looked at once, but the
order of uses that it allows is kept on every path through the body. -/

namespace Lowering

namespace Definition

variable {signatures : Signatures} {definition : Definition} {statements : List Statement}

theorem parameterSteps_closed (definition : Definition) : ∃ names, Closed names definition.parameterSteps := by
  unfold parameterSteps
  induction definition.parameters with
  | nil => exact ⟨_, .nil⟩
  | cons parameter rest ih =>
    obtain ⟨names, closed⟩ := ih
    exact ⟨_, .declare parameter.name _ closed⟩

/-- Whatever path is taken through an accepted body, its steps go through behind the parameters,
and no jump leads out of the body. -/
theorem Accepts.path_runs (accepts : definition.Accepts signatures statements) {fails : Expr → Prop}
    {steps : List Step} {ending : Ending} (path : Path fails (.body statements) steps ending) :
    (∃ left, Scope.initial.run (definition.parameterSteps ++ steps) = .ok left) ∧ ending.jumps = false := by
  obtain ⟨after, ran⟩ := accepts.ran
  obtain ⟨ready, declared, text⟩ := Scope.run_append.mp ran
  obtain ⟨names, parameters⟩ := definition.parameterSteps_closed
  obtain ⟨locals, body⟩ := Statement.bodySteps_closed statements
  have entered := parameters.grows Scope.initial_bounded declared
  have bounded := entered.bounded Scope.initial_bounded
  obtain ⟨left, walked, arrived⟩ := path.leads (.refl ready) bounded text
  refine ⟨⟨left, Scope.run_append.mpr ⟨ready, declared, walked⟩⟩, ?_⟩
  by_contra jumps
  have inside := arrived.inLoop (by simpa using jumps)
  have outside : after.loopDepth = 0 := (body.grows bounded text).loopDepth.trans entered.loopDepth
  omega

end Definition

namespace Function

variable {signatures : Signatures} {definition : Definition}

/-- On every path through the body of a function that is written out, each name that is used
stands for an instance, and none that was given away before. Any condition may come out false, so
a run that does not end is cut short by paths that leave it. -/
theorem paths_use_nothing_moved (accepted : (ofDefinition signatures definition).result.isOk = true) :
    ∃ statements, definition.body = .ok statements ∧
      ∀ (fails : Expr → Prop) (steps : List Step) (ending : Ending),
        Path fails (.body statements) steps ending →
          let uses := Instances.initial.resolve (definition.parameterSteps ++ steps)
          (∀ entry ∈ uses, entry.1.isSome = true) ∧ Instances.NoneAfterMove uses := by
  obtain ⟨statements, accepts⟩ := ofDefinition_accepts accepted
  refine ⟨statements, accepts.read, fun fails steps ending path => ?_⟩
  obtain ⟨⟨left, ran⟩, _⟩ := accepts.path_runs path
  obtain ⟨admitted, apart⟩ := Instances.resolve_of_run ran
  refine ⟨fun entry member => ?_, apart⟩
  obtain ⟨_, held, _, found, _⟩ := admitted entry member
  rw [found]
  rfl

theorem sample_uses_nothing_moved : ∃ statements, Definition.sample.body = .ok statements ∧
    ∀ (fails : Expr → Prop) (steps : List Step) (ending : Ending),
      Path fails (.body statements) steps ending →
        let uses := Instances.initial.resolve (Definition.sample.parameterSteps ++ steps)
        (∀ entry ∈ uses, entry.1.isSome = true) ∧ Instances.NoneAfterMove uses :=
  paths_use_nothing_moved Definition.sample_accepted

end Function
end Lowering
