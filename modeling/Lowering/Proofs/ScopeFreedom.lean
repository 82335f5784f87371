import Lowering.Proofs.ScopeGrowth

/-! Scopes that differ only in what has been moved. Steps that one scope allows are allowed by
every scope that has lost no more, and leave it with no more lost. -/

namespace Lowering

structure Binding.Freer (one other : Binding) : Prop where
  origin : one.origin = other.origin
  depth : one.depth = other.depth
  moved : one.moved = true → other.moved = true

theorem Binding.Freer.refl (binding : Binding) : Freer binding binding :=
  ⟨rfl, rfl, id⟩

theorem Binding.Freer.trans {one two three : Binding} (first : Freer one two) (last : Freer two three) :
    Freer one three :=
  ⟨first.origin.trans last.origin, first.depth.trans last.depth, last.moved ∘ first.moved⟩

theorem Binding.Freer.mark {one other : Binding} (freer : Freer one other) :
    Freer { one with moved := true } { other with moved := true } :=
  ⟨freer.origin, freer.depth, id⟩

theorem Binding.Keeps.freer {depth : Nat} {before after : Binding} (kept : Keeps depth before after) :
    Freer before after := by
  rcases kept with rfl | ⟨_, rfl⟩
  · exact .refl before
  · exact ⟨rfl, rfl, fun _ => rfl⟩

namespace Scope

/-- The same variables in the same blocks, moved only where those of the other scope are. -/
structure Freer (one other : Scope) : Prop where
  loopDepth : one.loopDepth = other.loopDepth
  frames : Matched Binding.Freer one.frames other.frames

/-- The scopes agree in this way around their innermost blocks. -/
structure FreerAround (one other : Scope) : Prop where
  loopDepth : one.loopDepth = other.loopDepth
  outer : Matched Binding.Freer one.outer other.outer

variable {one other before after : Scope}

theorem Freer.refl (scope : Scope) : Freer scope scope :=
  ⟨rfl, .same .refl _⟩

theorem Freer.around (freer : Freer one other) : FreerAround one other := by
  refine ⟨freer.loopDepth, ?_⟩
  cases freer.frames with
  | cons _ outer => exact outer

theorem Freer.keep (freer : Freer one before) (kept : Keeps before after) : Freer one after := by
  refine ⟨freer.loopDepth.trans kept.loopDepth.symm, ?_⟩
  exact freer.frames.trans (fun _ _ _ left right => left.trans right.freer) kept.frames

theorem FreerAround.grow {names : List String} (freer : FreerAround one before)
    (grown : Grows names before after) : FreerAround one after := by
  obtain ⟨new, _, _, loopDepth, frames⟩ := grown
  refine ⟨freer.loopDepth.trans loopDepth.symm, ?_⟩
  cases frames with
  | cons _ outer => exact freer.outer.trans (fun _ _ _ left right => left.trans right.freer) outer

theorem Freer.openBlock (freer : Freer one other) : Freer one.openBlock other.openBlock :=
  ⟨freer.loopDepth, .cons .nil freer.frames⟩

theorem Freer.openLoop (freer : Freer one other) : Freer one.openLoop other.openLoop :=
  ⟨congrArg (· + 1) freer.loopDepth, .cons .nil freer.frames⟩

/-- Closing a block leaves no difference within it. The function's own block stays open. -/
theorem FreerAround.closeBlock (freer : FreerAround one other) (opened : other.outer ≠ []) :
    Freer one.closeBlock other.closeBlock := by
  obtain ⟨inner, outer, depth⟩ := one
  obtain ⟨inner', outer', depth'⟩ := other
  cases freer.outer with
  | nil => exact absurd rfl opened
  | cons frame rest => exact ⟨freer.loopDepth, .cons frame rest⟩

theorem Freer.closeBlock (freer : Freer one other) : Freer one.closeBlock other.closeBlock := by
  by_cases opened : other.outer = []
  · obtain ⟨inner, outer, depth⟩ := one
    obtain ⟨inner', outer', depth'⟩ := other
    cases opened
    cases freer.around.outer
    exact freer
  · exact freer.around.closeBlock opened

theorem Freer.closeLoop (freer : Freer one other) : Freer one.closeLoop other.closeLoop :=
  ⟨congrArg (· - 1) freer.loopDepth, freer.closeBlock.frames⟩

private theorem Freer.declare {name : String} {origin : Origin} (freer : Freer one other)
    (declared : other.declare name origin = .ok after) :
    ∃ left, one.declare name origin = .ok left ∧ Freer left after := by
  obtain ⟨unused, rfl⟩ := declare_ok.mp declared
  obtain ⟨inner, outer, depth⟩ := one
  obtain ⟨inner', outer', depth'⟩ := other
  obtain ⟨rfl, frames⟩ : depth = depth' ∧ _ := ⟨freer.loopDepth, freer.frames⟩
  cases frames with
  | cons block rest =>
    rcases Matched.block_lookup block name with ⟨missing, _⟩ | ⟨_, _, _, there, _⟩
    · exact ⟨_, declare_ok.mpr ⟨missing, rfl⟩, rfl, .cons (.cons ⟨rfl, .refl _⟩ block) rest⟩
    · cases unused.symm.trans there

private theorem Freer.check {use : Use} (freer : Freer one other) (checked : other.check use = .ok after) :
    ∃ left, one.check use = .ok left ∧ Freer left after := by
  obtain ⟨binding, found, whole, allowed, rfl⟩ := check_ok.mp checked
  obtain ⟨held, there, same⟩ := freer.frames.counterpart_left found
  have holds : held.moved = false := by
    by_contra gone
    rw [same.moved (by simpa using gone)] at whole
    cases whole
  rw [← freer.loopDepth] at allowed
  refine ⟨_, check_ok.mpr ⟨held, there, holds, allowed.congr same.origin.symm same.depth.symm, rfl⟩, ?_⟩
  unfold used
  split
  · refine ⟨by simpa using freer.loopDepth, ?_⟩
    rw [frames_markMoved, frames_markMoved]
    exact markFrames_both (fun _ _ values => values.mark) freer.frames
  · exact freer

theorem Freer.step {step : Step} (freer : Freer one other) (stepped : other.step step = .ok after) :
    ∃ left, one.step step = .ok left ∧ Freer left after := by
  cases step with
  | openBlock =>
    cases stepped
    exact ⟨_, rfl, freer.openBlock⟩
  | closeBlock =>
    cases stepped
    exact ⟨_, rfl, freer.closeBlock⟩
  | openLoop =>
    cases stepped
    exact ⟨_, rfl, freer.openLoop⟩
  | closeLoop =>
    cases stepped
    exact ⟨_, rfl, freer.closeLoop⟩
  | declare name origin => exact freer.declare stepped
  | use use => exact freer.check stepped
  | jump keyword =>
    obtain ⟨inside, rfl⟩ := jump_ok.mp stepped
    exact ⟨one, jump_ok.mpr ⟨by rwa [freer.loopDepth], rfl⟩, freer⟩

/-- A scope that has lost no more goes along with every run of the other. -/
theorem Freer.run {steps : List Step} (freer : Freer one other) (ran : other.run steps = .ok after) :
    ∃ left, one.run steps = .ok left ∧ Freer left after := by
  induction steps generalizing one other with
  | nil =>
    cases run_nil.mp ran
    exact ⟨one, run_nil.mpr rfl, freer⟩
  | cons step rest ih =>
    obtain ⟨middle, stepped, later⟩ := run_cons.mp ran
    obtain ⟨held, followed, closer⟩ := freer.step stepped
    obtain ⟨left, finished, last⟩ := ih closer later
    exact ⟨left, run_cons.mpr ⟨held, followed, finished⟩, last⟩

end Scope
end Lowering
