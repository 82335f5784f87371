import Lowering.Proofs.ScopeSteps

/-! Scopes that hold the same variables, whatever has been moved in them. Steps that go through in
both of two such scopes leave them alike, and a variable that is readable in both is the same. -/

namespace Lowering

/-- The same declaration, at the same depth of loops. -/
structure Binding.Alike (one other : Binding) : Prop where
  origin : one.origin = other.origin
  depth : one.depth = other.depth

/-- Bindings that differ at most in a move are the same where neither is moved. -/
theorem Binding.Alike.eq {one other : Binding} (alike : Alike one other) (whole : one.moved = false)
    (whole' : other.moved = false) : one = other := by
  obtain ⟨origin, moved, depth⟩ := one
  obtain ⟨origin', moved', depth'⟩ := other
  obtain ⟨rfl, rfl⟩ : origin = origin' ∧ depth = depth' := ⟨alike.origin, alike.depth⟩
  cases whole
  cases whole'
  rfl

namespace Scope

/-- The same variables in the same blocks, whatever has been moved. -/
structure Alike (one other : Scope) : Prop where
  loopDepth : one.loopDepth = other.loopDepth
  frames : Matched Binding.Alike one.frames other.frames

namespace Alike

variable {one other after after' : Scope}

theorem refl (scope : Scope) : Alike scope scope :=
  ⟨rfl, .same (fun _ => ⟨rfl, rfl⟩) _⟩

theorem symm (alike : Alike one other) : Alike other one := by
  refine ⟨alike.loopDepth.symm, List.Forall₂.flip (List.Forall₂.imp (fun _ _ block => ?_) alike.frames)⟩
  exact List.Forall₂.flip (List.Forall₂.imp (fun _ _ entry => ⟨entry.1.symm, entry.2.1.symm, entry.2.2.symm⟩) block)

private theorem closeBlock (alike : Alike one other) : Alike one.closeBlock other.closeBlock := by
  obtain ⟨inner, outer, depth⟩ := one
  obtain ⟨inner', outer', depth'⟩ := other
  obtain ⟨loops, frames⟩ := alike
  cases frames with
  | cons block rest =>
    cases rest with
    | nil => exact ⟨loops, .cons block .nil⟩
    | cons around others => exact ⟨loops, .cons around others⟩

private theorem declare {name : String} {origin : Origin} (alike : Alike one other)
    (declared : one.declare name origin = .ok after) (declared' : other.declare name origin = .ok after') :
    Alike after after' := by
  obtain ⟨_, rfl⟩ := declare_ok.mp declared
  obtain ⟨_, rfl⟩ := declare_ok.mp declared'
  refine ⟨alike.loopDepth, ?_⟩
  cases alike.frames with
  | cons block rest => exact .cons (.cons ⟨rfl, rfl, alike.loopDepth⟩ block) rest

theorem used (alike : Alike one other) (use : Use) : Alike (one.used use) (other.used use) := by
  unfold Scope.used
  split
  · refine ⟨by simpa using alike.loopDepth, ?_⟩
    rw [frames_markMoved, frames_markMoved]
    exact markFrames_both (fun _ _ values => ⟨values.origin, values.depth⟩) alike.frames
  · exact alike

theorem step {step : Step} (alike : Alike one other) (stepped : one.step step = .ok after)
    (stepped' : other.step step = .ok after') : Alike after after' := by
  cases step with
  | openBlock =>
    cases stepped
    cases stepped'
    exact ⟨alike.loopDepth, .cons .nil alike.frames⟩
  | closeBlock =>
    cases stepped
    cases stepped'
    exact alike.closeBlock
  | openLoop =>
    cases stepped
    cases stepped'
    exact ⟨congrArg (· + 1) alike.loopDepth, .cons .nil alike.frames⟩
  | closeLoop =>
    cases stepped
    cases stepped'
    exact ⟨congrArg (· - 1) alike.loopDepth, alike.closeBlock.frames⟩
  | declare name origin => exact alike.declare stepped stepped'
  | use use =>
    obtain ⟨_, _, _, _, rfl⟩ := check_ok.mp stepped
    obtain ⟨_, _, _, _, rfl⟩ := check_ok.mp stepped'
    exact alike.used use
  | jump keyword =>
    obtain ⟨_, rfl⟩ := jump_ok.mp stepped
    obtain ⟨_, rfl⟩ := jump_ok.mp stepped'
    exact alike

theorem run {steps : List Step} (alike : Alike one other) (ran : one.run steps = .ok after)
    (ran' : other.run steps = .ok after') : Alike after after' := by
  induction steps generalizing one other with
  | nil =>
    cases run_nil.mp ran
    cases run_nil.mp ran'
    exact alike
  | cons step rest ih =>
    obtain ⟨middle, stepped, later⟩ := run_cons.mp ran
    obtain ⟨middle', stepped', later'⟩ := run_cons.mp ran'
    exact ih (alike.step stepped stepped') later later'

theorem readable {name : String} {binding binding' : Binding} (alike : Alike one other)
    (read : one.readable name = .ok binding) (read' : other.readable name = .ok binding') :
    binding = binding' := by
  obtain ⟨found, whole⟩ := readable_ok.mp read
  obtain ⟨found', whole'⟩ := readable_ok.mp read'
  obtain ⟨held, there, values⟩ := alike.frames.counterpart found
  cases there.symm.trans found'
  exact values.eq whole whole'

end Alike
end Scope
end Lowering
