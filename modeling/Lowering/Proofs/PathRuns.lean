import Lowering.Proofs.Paths
import Lowering.Proofs.ScopeFreedom

/-! Every path through code that goes through a scope in the order of its text goes through the
scope as well. A path skips and repeats what the text has once, which is no harm, since what is
skipped could only have lost more and what is repeated loses nothing. -/

namespace Lowering

open Statement (blockSteps roundSteps bodySteps)

namespace Scope

variable {one other before after : Scope}

theorem run_block {inner : List Step} : before.run (blockSteps inner) = .ok after ↔
    ∃ ended, before.openBlock.run inner = .ok ended ∧ ended.closeBlock = after := by
  simp [blockSteps, run_append, run_cons, run_nil, step]

theorem run_round {head inner : List Step} : before.run (roundSteps head inner) = .ok after ↔
    ∃ begun ended, before.openLoop.run head = .ok begun ∧ begun.run (blockSteps inner) = .ok ended ∧
      ended.closeLoop = after := by
  simp [roundSteps, run_append, run_cons, run_nil, step]

/-- Where a path leads, compared with the scope behind the text of what it led through. A path
that is cut short need not have declared everything. -/
structure Arrives (ending : Ending) (left after : Scope) : Prop where
  around : left.FreerAround after
  whole : ending = .normal → left.Freer after
  inLoop : ending.jumps = true → 0 < after.loopDepth

theorem Freer.arrives {ending : Ending} (freer : one.Freer after)
    (inLoop : ending.jumps = true → 0 < after.loopDepth) : Arrives ending one after :=
  ⟨freer.around, fun _ => freer, inLoop⟩

/-- Behind the text of what follows, nothing is changed around the innermost block. -/
theorem Arrives.grow {ending : Ending} {names : List String} (arrived : Arrives ending one before)
    (short : ending ≠ .normal) (grown : Grows names before after) : Arrives ending one after := by
  refine ⟨arrived.around.grow grown, fun normal => absurd normal short, fun jumps => ?_⟩
  rw [grown.loopDepth]
  exact arrived.inLoop jumps

end Scope

open Scope (Freer Bounded Arrives)

/-- Steps can be taken in every scope that has lost no more than one in which the part goes
through in the order of its text. -/
def Part.Leads (part : Part) (steps : List Step) (ending : Ending) : Prop :=
  ∀ {one other after : Scope}, one.Freer other → other.Bounded → other.run part.steps = .ok after →
    ∃ left, one.run steps = .ok left ∧ Arrives ending left after

variable {one other after : Scope} {body : List Statement} {inner : List Step} {ending : Ending}

theorem block_leads (leads : (Part.body body).Leads inner ending) (freer : one.Freer other)
    (bounded : other.Bounded) (ran : other.run (blockSteps (bodySteps body)) = .ok after) :
    ∃ left, one.run (blockSteps inner) = .ok left ∧ left.Freer after ∧
      (ending.jumps = true → 0 < after.loopDepth) := by
  obtain ⟨ended, text, rfl⟩ := Scope.run_block.mp ran
  obtain ⟨left, walked, arrived⟩ := leads freer.openBlock (Scope.openBlock_bounded bounded) text
  refine ⟨left.closeBlock, Scope.run_block.mpr ⟨left, walked, rfl⟩, ?_, ?_⟩
  · apply arrived.around.closeBlock
    obtain ⟨_, closed⟩ := Statement.bodySteps_closed body
    exact Scope.outer_of_grows (closed.grows (Scope.openBlock_bounded bounded) text)
  · intro jumps
    rw [Scope.loopDepth_closeBlock]
    exact arrived.inLoop jumps

theorem round_leads {head : List Step} {names : List String} (closed : Closed names head)
    (leads : (Part.body body).Leads inner ending) (freer : one.Freer other) (bounded : other.Bounded)
    (ran : other.run (roundSteps head (bodySteps body)) = .ok after) :
    ∃ left, one.run (roundSteps head inner) = .ok left ∧ left.Freer after := by
  obtain ⟨begun, ended, opened, blocked, rfl⟩ := Scope.run_round.mp ran
  obtain ⟨held, entered, closer⟩ := freer.openLoop.run opened
  have inside := (closed.grows (Scope.openLoop_bounded bounded) opened).bounded (Scope.openLoop_bounded bounded)
  obtain ⟨left, walked, last, _⟩ := block_leads leads closer inside blocked
  exact ⟨left.closeLoop, Scope.run_round.mpr ⟨held, left, entered, walked, rfl⟩, last.closeLoop⟩

theorem RoundHead.steps_closed (head : RoundHead) : ∃ names, Closed names head.steps := by
  cases head with
  | condition expr => exact ⟨_, .uses expr.uses⟩
  | item name borrowed => exact ⟨_, .declare name _ .nil⟩

namespace Part

theorem choice_steps (tests : List Test) (inside : List Statement) (rest : List (List Test × List Statement))
    (otherwise : Option (List Statement)) :
    (choice ((tests, inside) :: rest) otherwise).steps =
      Test.stepsOf tests ++ (blockSteps (bodySteps inside) ++ (choice rest otherwise).steps) := by
  simp [steps, Statement.armSteps, Test.stepsOf, List.flatMap_map]

theorem ofBranches_steps (branches : List (Expr × List Statement)) (otherwise : Option (List Statement)) :
    (ofBranches branches otherwise).steps = (Statement.ifBlock branches otherwise).steps := by
  simp only [ofBranches, steps, Statement.steps, List.map_map]
  congr 1
  induction branches with
  | nil => rfl
  | cons branch rest ih => simpa [Statement.armSteps, Statement.branchSteps, Test.expr] using ih

theorem ofArms_steps (subject : Expr) (arms : List (List Expr × List Statement))
    (otherwise : Option (List Statement)) :
    subject.steps ++ (ofArms arms otherwise).steps = (Statement.matchBlock subject arms otherwise).steps := by
  simp [ofArms, steps, Statement.steps, Test.expr, Function.comp_def]

theorem choice_closed (alternatives : List (List Test × List Statement)) (otherwise : Option (List Statement)) :
    Closed [] (choice alternatives otherwise).steps :=
  (Statement.armSteps_closed _).append (Statement.defaultSteps_closed otherwise)

theorem rounds_idle {head : RoundHead} {inside : List Statement} {before after : Scope}
    (bounded : before.Bounded) (ran : before.run (rounds head inside).steps = .ok after) : after = before := by
  obtain ⟨_, first⟩ := head.steps_closed
  obtain ⟨_, inner⟩ := Statement.bodySteps_closed inside
  exact (Statement.round_closed first inner).loop_idle bounded ran

end Part

theorem Test.stepsOf_closed (tests : List Test) : Closed [] (stepsOf tests) := by
  simp only [stepsOf, Expr.steps, ← List.map_flatMap]
  exact .uses _

/-- A path leads through every scope that allows the text it belongs to. -/
theorem Path.leads {fails : Expr → Prop} {part : Part} {steps : List Step}
    (path : Path fails part steps ending) : part.Leads steps ending := by
  induction path with
  | plain | returning =>
    intro one other after freer bounded ran
    obtain ⟨left, walked, closer⟩ := freer.run ran
    exact ⟨left, walked, closer.arrives nofun⟩
  | breaking | continuing =>
    intro one other after freer bounded ran
    obtain ⟨left, walked, closer⟩ := freer.run ran
    obtain ⟨inLoop, rfl⟩ := Scope.jump_ok.mp (Scope.run_one.mp ran)
    exact ⟨left, walked, closer.arrives fun _ => inLoop⟩
  | whileLoop _ ih => exact ih
  | forLoop _ ih =>
    intro one other after freer bounded ran
    obtain ⟨ranged, first, looped⟩ := Scope.run_append.mp ran
    obtain ⟨held, walked, closer⟩ := freer.run first
    have inside := ((Closed.uses _).grows bounded first).bounded bounded
    obtain ⟨left, rounds, arrived⟩ := ih closer inside looped
    exact ⟨left, Scope.run_append.mpr ⟨held, walked, rounds⟩, arrived⟩
  | @ifBlock branches otherwise steps ending _ ih =>
    intro one other after freer bounded ran
    exact ih freer bounded (by rwa [Part.ofBranches_steps])
  | @matchBlock subject arms otherwise steps ending _ ih =>
    intro one other after freer bounded ran
    change other.run (Statement.matchBlock subject arms otherwise).steps = _ at ran
    rw [← Part.ofArms_steps] at ran
    obtain ⟨asked, first, chosen⟩ := Scope.run_append.mp ran
    obtain ⟨held, walked, closer⟩ := freer.run first
    have inside := ((Closed.uses _).grows bounded first).bounded bounded
    obtain ⟨left, rest, arrived⟩ := ih closer inside chosen
    exact ⟨left, Scope.run_append.mpr ⟨held, walked, rest⟩, arrived⟩
  | done =>
    intro one other after freer bounded ran
    cases Scope.run_nil.mp ran
    exact ⟨one, Scope.run_nil.mpr rfl, freer.arrives nofun⟩
  | @next statement rest first later ending _ _ ihFirst ihLater =>
    intro one other after freer bounded ran
    obtain ⟨middle, begun, ended⟩ := Scope.run_append.mp ran
    obtain ⟨held, walked, arrived⟩ := ihFirst freer bounded begun
    have inside := ((Statement.steps_closed statement).grows bounded begun).bounded bounded
    obtain ⟨left, finished, last⟩ := ihLater (arrived.whole rfl) inside ended
    exact ⟨left, Scope.run_append.mpr ⟨held, walked, finished⟩, last⟩
  | @cut statement rest steps ending _ short ih =>
    intro one other after freer bounded ran
    obtain ⟨middle, begun, ended⟩ := Scope.run_append.mp ran
    obtain ⟨left, walked, arrived⟩ := ih freer bounded begun
    have inside := ((Statement.steps_closed statement).grows bounded begun).bounded bounded
    obtain ⟨names, closed⟩ := Statement.bodySteps_closed rest
    exact ⟨left, walked, arrived.grow short (closed.grows inside ended)⟩
  | @taken failed holds others body rest otherwise inner ending _ _ ih =>
    intro one other after freer bounded ran
    have split : Test.stepsOf (failed ++ holds :: others) =
        Test.stepsOf (failed ++ [holds]) ++ Test.stepsOf others := by
      simp [Test.stepsOf]
    rw [Part.choice_steps, split, List.append_assoc] at ran
    obtain ⟨decided, tests, ran⟩ := Scope.run_append.mp ran
    obtain ⟨tested, unlooked, ran⟩ := Scope.run_append.mp ran
    obtain ⟨closed, block, skipped⟩ := Scope.run_append.mp ran
    -- The other tests and alternatives may lose something in the text that the path has not lost.
    have atTests := ((Test.stepsOf_closed _).keeps bounded tests).bounded bounded
    have behindTests := (Test.stepsOf_closed others).keeps atTests unlooked
    have atBlock := behindTests.bounded atTests
    obtain ⟨held, walked, closer⟩ := freer.run tests
    obtain ⟨left, through, last, inLoop⟩ := block_leads ih (closer.keep behindTests) atBlock block
    have atRest := ((Statement.block_closed body).keeps atBlock block).bounded atBlock
    have behindRest := (Part.choice_closed rest otherwise).keeps atRest skipped
    refine ⟨left, Scope.run_append.mpr ⟨held, walked, through⟩, (last.keep behindRest).arrives fun jumps => ?_⟩
    rw [behindRest.loopDepth]
    exact inLoop jumps
  | @passed tests body rest otherwise steps ending _ _ ih =>
    intro one other after freer bounded ran
    rw [Part.choice_steps] at ran
    obtain ⟨tested, tests, ran⟩ := Scope.run_append.mp ran
    obtain ⟨closed, block, chosen⟩ := Scope.run_append.mp ran
    have atBlock := ((Test.stepsOf_closed _).keeps bounded tests).bounded bounded
    have behindBlock := (Statement.block_closed body).keeps atBlock block
    obtain ⟨held, walked, closer⟩ := freer.run tests
    obtain ⟨left, later, arrived⟩ := ih (closer.keep behindBlock) (behindBlock.bounded atBlock) chosen
    exact ⟨left, Scope.run_append.mpr ⟨held, walked, later⟩, arrived⟩
  | @default body inner ending _ ih =>
    intro one other after freer bounded ran
    obtain ⟨left, walked, closer, inLoop⟩ := block_leads ih freer bounded ran
    exact ⟨left, walked, closer.arrives inLoop⟩
  | skipped =>
    intro one other after freer bounded ran
    cases Scope.run_nil.mp ran
    exact ⟨one, Scope.run_nil.mpr rfl, freer.arrives nofun⟩
  | @refused condition body _ =>
    intro one other after freer bounded ran
    obtain ⟨begun, ended, opened, _, _⟩ := Scope.run_round.mp ran
    have idle := Part.rounds_idle bounded ran
    obtain ⟨held, walked, closer⟩ := freer.openLoop.run opened
    have left : other.run (.openLoop :: condition.steps ++ [.closeLoop]) = .ok begun.closeLoop :=
      Scope.run_append.mpr ⟨begun, opened, Scope.run_one.mpr rfl⟩
    have back := (Closed.uses condition.uses).loop_idle bounded left
    refine ⟨held.closeLoop, Scope.run_append.mpr ⟨held, walked, Scope.run_one.mpr rfl⟩, ?_⟩
    rw [idle, ← back]
    exact closer.closeLoop.arrives nofun
  | exhausted =>
    intro one other after freer bounded ran
    rw [Part.rounds_idle bounded ran]
    exact ⟨one, Scope.run_nil.mpr rfl, freer.arrives nofun⟩
  | @round head body inner ending later last _ on _ ihInside ihLater =>
    intro one other after freer bounded ran
    obtain ⟨names, closed⟩ := head.steps_closed
    obtain ⟨held, walked, closer⟩ := round_leads closed ihInside freer bounded ran
    -- The text of the rounds leads nowhere, so that the next round starts where this one did.
    rw [Part.rounds_idle bounded ran] at closer
    obtain ⟨left, rounds, arrived⟩ := ihLater closer bounded ran
    exact ⟨left, Scope.run_append.mpr ⟨held, walked, rounds⟩, arrived⟩
  | @left head body inner ending _ off ih =>
    intro one other after freer bounded ran
    obtain ⟨names, closed⟩ := head.steps_closed
    obtain ⟨left, walked, closer⟩ := round_leads closed ih freer bounded ran
    refine ⟨left, walked, closer.arrives fun jumps => ?_⟩
    cases ending with
    | normal | continued => cases off
    | broke | returned => cases jumps

end Lowering
