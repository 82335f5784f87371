import Lowering.Proofs.ActionRuns
import Lowering.Proofs.Blocks

/-! What code does to a scope, as a list of steps: blocks and loops open and close, variables
are declared and used. Whatever is written out for the code, its effect on the scope is that of
its steps, taken in order. -/

namespace Lowering

inductive Use where
  | read (name : String)
  /-- The variable is the root of what an assignment changes. -/
  | set (name : String)
  /-- The variable is the root of the receiver of a method that changes it. -/
  | change (name : String)
  | pass (name : String) (accessor : Accessor)
deriving DecidableEq, Repr

namespace Use

def name : Use → String
  | read name | set name | change name | pass name _ => name

def isMove : Use → Bool
  | pass _ .move => true
  | _ => false

def mutates : Use → Bool
  | set _ | change _ | pass _ .mutate => true
  | _ => false

end Use

inductive Step where
  | openBlock
  | closeBlock
  | openLoop
  | closeLoop
  | declare (name : String) (origin : Origin)
  | use (use : Use)
  | jump (keyword : String)
deriving DecidableEq, Repr

namespace Scope

/-- The scope after a use, which is refused where the variable does not allow it. -/
def check (scope : Scope) : Use → Except Error Scope
  | .read name => (fun _ => scope) <$> scope.readable name
  | .set name | .change name => (fun _ => scope) <$> scope.writable name
  | .pass name accessor => scope.pass name accessor

def step (scope : Scope) : Step → Except Error Scope
  | .openBlock => .ok scope.openBlock
  | .closeBlock => .ok scope.closeBlock
  | .openLoop => .ok scope.openLoop
  | .closeLoop => .ok scope.closeLoop
  | .declare name origin => scope.declare name origin
  | .use use => scope.check use
  | .jump keyword => if scope.isInLoop then .ok scope else .error (.misuse (.outsideLoop keyword))

def run (scope : Scope) (steps : List Step) : Except Error Scope :=
  steps.foldlM step scope

def Holds (scope : Scope) (name : String) : Prop :=
  ∃ binding, scope.find? name = some binding ∧ binding.moved = false

end Scope

/-- The variable allows a use at some loop depth. -/
def Binding.Allows (binding : Binding) (depth : Nat) : Use → Prop
  | .read _ => True
  | .set _ | .change _ => binding.isMutable = true
  | .pass _ accessor => binding.permits accessor = true ∧ (accessor = .move → depth ≤ binding.depth)

/-- What a variable allows depends on its declaration alone. -/
theorem Binding.Allows.congr {one other : Binding} {depth : Nat} {use : Use}
    (allowed : one.Allows depth use) (origin : one.origin = other.origin)
    (declared : one.depth = other.depth) : other.Allows depth use := by
  cases one
  cases other
  cases origin
  cases declared
  exact allowed

namespace Scope

variable {before after : Scope}

def used (scope : Scope) (use : Use) : Scope :=
  if use.isMove then scope.markMoved use.name else scope

theorem readable_ok {name : String} {binding : Binding} :
    before.readable name = .ok binding ↔ before.find? name = some binding ∧ binding.moved = false := by
  unfold readable
  cases before.find? name with
  | none => simp
  | some found =>
    by_cases gone : found.moved = true
    · simp only [gone, if_true, reduceCtorEq, Option.some.injEq, false_iff, not_and]
      rintro rfl
      simp [gone]
    · simp only [gone, Bool.false_eq_true, if_false, Except.ok.injEq, Option.some.injEq]
      constructor
      · rintro rfl
        exact ⟨rfl, by simpa using gone⟩
      · exact And.left

theorem writable_ok {name : String} {binding : Binding} :
    before.writable name = .ok binding ↔
      before.find? name = some binding ∧ binding.moved = false ∧ binding.isMutable = true := by
  simp only [writable, except_bind_ok, readable_ok, ← and_assoc]
  constructor
  · rintro ⟨found, holds, allowed⟩
    split at allowed
    next changes =>
      cases allowed
      exact ⟨holds, changes⟩
    next => cases allowed
  · rintro ⟨holds, changes⟩
    exact ⟨binding, holds, by simp [changes, pure, Except.pure]⟩

theorem pass_ok {name : String} {accessor : Accessor} :
    before.pass name accessor = .ok after ↔
      ∃ binding, before.find? name = some binding ∧ binding.moved = false ∧
        binding.Allows before.loopDepth (.pass name accessor) ∧
        before.used (.pass name accessor) = after := by
  simp only [pass, except_bind_ok, readable_ok, and_assoc]
  apply exists_congr
  intro binding
  refine and_congr_right fun _ => and_congr_right fun _ => ?_
  by_cases permitted : binding.permits accessor = true
  · by_cases moves : accessor = .move
    · subst moves
      by_cases outside : binding.depth < before.loopDepth
      · have refused : ¬ before.loopDepth ≤ binding.depth := Nat.not_le.mpr outside
        simp [Binding.Allows, permitted, outside, refused, bind, Except.bind]
      · simp only [Nat.not_lt] at outside
        simp [Binding.Allows, permitted, outside, Nat.not_lt.mpr outside, used, Use.isMove, Use.name]
    · simp [Binding.Allows, permitted, moves, used, Use.isMove]
  · simp [Binding.Allows, permitted, bind, Except.bind]

/-- A use succeeds exactly when its variable is there, still has its value and allows the use.
All that it leaves behind is the mark of a move. -/
theorem check_ok {use : Use} :
    before.check use = .ok after ↔
      ∃ binding, before.find? use.name = some binding ∧ binding.moved = false ∧
        binding.Allows before.loopDepth use ∧ before.used use = after := by
  cases use with
  | read name =>
    simp only [check, except_map_ok, readable_ok, and_assoc]
    simp [Binding.Allows, used, Use.isMove, Use.name]
  | set name | change name =>
    simp only [check, except_map_ok, writable_ok, and_assoc]
    simp [Binding.Allows, used, Use.isMove, Use.name]
  | pass name accessor => exact pass_ok

theorem declare_ok {name : String} {origin : Origin} :
    before.declare name origin = .ok after ↔ before.inner.lookup name = none ∧
      { before with inner := (name, ⟨origin, false, before.loopDepth⟩) :: before.inner } = after := by
  unfold declare
  cases before.inner.lookup name <;> simp

theorem jump_ok {keyword : String} :
    before.step (.jump keyword) = .ok after ↔ 0 < before.loopDepth ∧ before = after := by
  by_cases inside : 0 < before.loopDepth
  · simp [step, isInLoop, inside]
  · simp [step, isInLoop, inside]

theorem run_nil : before.run [] = .ok after ↔ before = after := by
  simp [run]

theorem run_cons {step : Step} {rest : List Step} :
    before.run (step :: rest) = .ok after ↔
      ∃ middle, before.step step = .ok middle ∧ middle.run rest = .ok after := by
  simp only [run, List.foldlM_cons, except_bind_ok]

theorem run_append {first rest : List Step} :
    before.run (first ++ rest) = .ok after ↔
      ∃ middle, before.run first = .ok middle ∧ middle.run rest = .ok after := by
  simp only [run, List.foldlM_append, except_bind_ok]

theorem run_one {step : Step} : before.run [step] = .ok after ↔ before.step step = .ok after := by
  simp [run_cons, run_nil]

end Scope

end Lowering
