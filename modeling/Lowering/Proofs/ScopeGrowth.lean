import Lowering.Proofs.StatementSteps

/-! What code leaves of a scope. Whatever blocks it opens it closes again, so that afterwards the
scope holds what it held before, some of it moved, with new variables in the innermost block. A
loop cannot even move anything, since every variable from before it is declared outside it. -/

namespace Lowering

/-- A variable stays what it is, though it may be moved where few enough loops are open. -/
def Binding.Keeps (depth : Nat) (before after : Binding) : Prop :=
  before = after ∨ depth ≤ before.depth ∧ { before with moved := true } = after

theorem Binding.Keeps.trans {depth : Nat} {before middle after : Binding} (first : Keeps depth before middle)
    (last : Keeps depth middle after) : Keeps depth before after := by
  rcases first with rfl | ⟨inside, rfl⟩
  · exact last
  · rcases last with rfl | ⟨_, rfl⟩
    · exact .inr ⟨inside, rfl⟩
    · exact .inr ⟨inside, rfl⟩

theorem Binding.Keeps.mono {depth deeper : Nat} {before after : Binding} (kept : Keeps deeper before after)
    (less : depth ≤ deeper) : Keeps depth before after :=
  kept.imp_right fun ⟨inside, marked⟩ => ⟨Nat.le_trans less inside, marked⟩

namespace Scope

/-- The same variables in the same blocks, some of them moved. -/
structure Keeps (before after : Scope) : Prop where
  loopDepth : after.loopDepth = before.loopDepth
  frames : Matched (Binding.Keeps before.loopDepth) before.frames after.frames

def extend (scope : Scope) (new : Frame) : Scope :=
  { scope with inner := new ++ scope.inner }

/-- Some variables of these names are new in the innermost block, and the rest is kept. -/
def Grows (names : List String) (before after : Scope) : Prop :=
  ∃ new : Frame, new.map Prod.fst = names ∧ (∀ entry ∈ new, entry.2.depth = before.loopDepth) ∧
    (before.extend new).Keeps after

/-- No variable is declared in more loops than are open. -/
def Bounded (scope : Scope) : Prop :=
  ∀ frame ∈ scope.frames, ∀ entry ∈ frame, entry.2.depth ≤ scope.loopDepth

variable {before middle after : Scope} {names : List String}

theorem Keeps.refl (scope : Scope) : Keeps scope scope :=
  ⟨rfl, .same (fun _ => .inl rfl) _⟩

theorem Keeps.trans (first : Keeps before middle) (last : Keeps middle after) : Keeps before after := by
  refine ⟨last.loopDepth.trans first.loopDepth, ?_⟩
  have later := last.frames
  rw [first.loopDepth] at later
  exact first.frames.trans (fun _ _ _ left right => left.trans right) later

theorem Grows.of_keeps (kept : Keeps before after) : Grows [] before after :=
  ⟨[], rfl, by simp, kept⟩

theorem Grows.keeps (grown : Grows [] before after) : Keeps before after := by
  obtain ⟨new, named, _, kept⟩ := grown
  cases List.map_eq_nil_iff.mp named
  exact kept

private theorem Keeps.extend (kept : Keeps before after) (new : Frame) :
    Keeps (before.extend new) (after.extend new) := by
  refine ⟨kept.loopDepth, ?_⟩
  cases kept.frames with
  | cons inner outer =>
    refine .cons (List.rel_append ?_ inner) outer
    exact List.forall₂_same.mpr fun _ _ => ⟨rfl, .inl rfl⟩

theorem Grows.trans {more : List String} (first : Grows names before middle) (last : Grows more middle after) :
    Grows (more ++ names) before after := by
  obtain ⟨new, named, declared, kept⟩ := first
  obtain ⟨newer, namedLater, declaredLater, keptLater⟩ := last
  refine ⟨newer ++ new, by rw [List.map_append, namedLater, named], ?_, ?_⟩
  · intro entry member
    rcases List.mem_append.mp member with late | early
    · exact (declaredLater entry late).trans kept.loopDepth
    · exact declared entry early
  · have whole : before.extend (newer ++ new) = (before.extend new).extend newer := by
      simp [Scope.extend]
    rw [whole]
    exact (kept.extend newer).trans keptLater

theorem Grows.loopDepth (grown : Grows names before after) : after.loopDepth = before.loopDepth := by
  obtain ⟨_, _, _, kept⟩ := grown
  exact kept.loopDepth

theorem Keeps.bounded (kept : Keeps before after) (bounded : Bounded before) : Bounded after := by
  intro frame inFrames entry inFrame
  rw [kept.loopDepth]
  obtain ⟨old, inOld, held, inHeld, same⟩ := kept.frames.mem_second inFrames inFrame
  have limit := bounded old inOld held inHeld
  rcases same with same | ⟨_, same⟩
  · rw [← same]
    exact limit
  · rw [← same]
    exact limit

theorem Grows.bounded (grown : Grows names before after) (bounded : Bounded before) : Bounded after := by
  obtain ⟨new, _, declared, kept⟩ := grown
  apply kept.bounded
  intro frame inFrames entry inFrame
  rcases List.mem_cons.mp inFrames with rfl | outside
  · rcases List.mem_append.mp inFrame with new | old
    · exact Nat.le_of_eq (declared entry new)
    · exact bounded _ List.mem_cons_self entry old
  · exact bounded frame (List.mem_cons_of_mem _ outside) entry inFrame

theorem initial_bounded : Bounded initial := by
  intro frame member entry inside
  cases List.mem_singleton.mp member
  cases inside

theorem openBlock_bounded (bounded : Bounded before) : Bounded before.openBlock := by
  intro frame member entry inside
  rcases List.mem_cons.mp member with rfl | outside
  · cases inside
  · exact bounded frame outside entry inside

theorem openLoop_bounded (bounded : Bounded before) : Bounded before.openLoop :=
  fun frame member entry inside => Nat.le_succ_of_le (openBlock_bounded bounded frame member entry inside)

theorem check_keeps {use : Use} (checked : before.check use = .ok after) : Keeps before after := by
  obtain ⟨binding, found, _, allowed, rfl⟩ := check_ok.mp checked
  unfold used
  split
  next moves =>
    refine ⟨loopDepth_markMoved _ _, ?_⟩
    rw [frames_markMoved]
    refine markFrames_matched (fun _ => .inl rfl) _ found (.inr ⟨?_, rfl⟩)
    cases use with
    | pass name accessor =>
      cases accessor with
      | move => exact allowed.2 rfl
      | _ => cases moves
    | _ => cases moves
  next => exact .refl _

theorem uses_keep {uses : List Use} (ran : before.run (uses.map .use) = .ok after) : Keeps before after := by
  induction uses generalizing before with
  | nil =>
    cases run_nil.mp ran
    exact .refl _
  | cons use rest ih =>
    obtain ⟨middle, checked, later⟩ := run_cons.mp ran
    exact (check_keeps checked).trans (ih later)

theorem Keeps.alike (kept : Keeps before after) : Alike before after := by
  refine ⟨kept.loopDepth.symm, kept.frames.imp fun one other same => ?_⟩
  rcases same with rfl | ⟨_, rfl⟩
  · exact ⟨rfl, rfl⟩
  · exact ⟨rfl, rfl⟩

theorem declare_grows {name : String} {origin : Origin} (declared : before.declare name origin = .ok after) :
    Grows [name] before after := by
  obtain ⟨_, rfl⟩ := declare_ok.mp declared
  exact ⟨[(name, ⟨origin, false, before.loopDepth⟩)], rfl, by simp, .refl _⟩

theorem outer_of_grows (opened : Grows names before.openBlock after) : after.outer ≠ [] := by
  obtain ⟨_, _, _, _, frames⟩ := opened
  obtain ⟨inner, outer, depth⟩ := after
  intro closed
  cases closed
  cases frames with
  | cons _ around => cases around

@[simp] theorem loopDepth_closeBlock (scope : Scope) : scope.closeBlock.loopDepth = scope.loopDepth := by
  unfold closeBlock
  split <;> rfl

theorem closeBlock_keeps (opened : Grows names before.openBlock after) :
    Keeps before after.closeBlock := by
  obtain ⟨new, _, _, loopDepth, frames⟩ := opened
  obtain ⟨inner, outer, depth⟩ := after
  cases frames with
  | cons _ around =>
    cases around with
    | cons frame rest => exact ⟨loopDepth, .cons frame rest⟩

private theorem outside_kept (bounded : Bounded before) {frames : List Frame}
    (matched : Matched (Binding.Keeps (before.loopDepth + 1)) before.frames frames) :
    before.frames = frames := by
  apply Matched.eq_of_mem matched
  intro frame inFrames entry inFrame other same
  have limit := bounded frame inFrames entry inFrame
  -- A move would need a declaration in as many loops as are open now, which is one more.
  rcases same with same | ⟨inside, _⟩
  · exact same
  · omega

/-- What is moved inside of a loop was declared in more loops than are open around it. -/
theorem closeLoop_keeps (opened : Grows names before.openLoop after) : Keeps before after.closeLoop := by
  obtain ⟨new, _, _, loopDepth, frames⟩ := opened
  obtain ⟨inner, outer, depth⟩ := after
  cases frames with
  | cons _ around =>
    cases around with
    | cons frame rest =>
      have kept : Matched (Binding.Keeps (before.loopDepth + 1)) before.frames _ := .cons frame rest
      exact ⟨congrArg (· - 1) loopDepth, kept.imp fun _ _ entry => entry.mono (Nat.le_succ _)⟩

theorem closeLoop_eq (bounded : Bounded before) (opened : Grows names before.openLoop after) :
    after.closeLoop = before := by
  obtain ⟨new, _, _, loopDepth, frames⟩ := opened
  obtain ⟨inner, outer, depth⟩ := after
  obtain ⟨first, rest, loops⟩ := before
  cases frames with
  | cons _ around =>
    cases outside_kept bounded around
    cases loopDepth
    rfl

end Scope

/-- Steps that close every block they open. The names are those declared outside of them, the
latest first. -/
inductive Closed : List String → List Step → Prop where
  | nil : Closed [] []
  | use (use : Use) {names rest} : Closed names rest → Closed names (.use use :: rest)
  | jump (keyword : String) {names rest} : Closed names rest → Closed names (.jump keyword :: rest)
  | declare (name : String) (origin : Origin) {names rest} :
    Closed names rest → Closed (names ++ [name]) (.declare name origin :: rest)
  | block {inside names inner rest} :
    Closed inside inner → Closed names rest → Closed names (.openBlock :: inner ++ .closeBlock :: rest)
  | loop {inside names inner rest} :
    Closed inside inner → Closed names rest → Closed names (.openLoop :: inner ++ .closeLoop :: rest)

namespace Closed

variable {names more : List String} {steps first rest : List Step}

theorem append (closed : Closed names first) (later : Closed more rest) :
    Closed (more ++ names) (first ++ rest) := by
  induction closed with
  | nil => simpa using later
  | use use _ ih => exact .use use ih
  | jump keyword _ ih => exact .jump keyword ih
  | declare name origin _ ih => simpa using Closed.declare name origin ih
  | block inner _ _ ih => simpa using Closed.block inner ih
  | loop inner _ _ ih => simpa using Closed.loop inner ih

theorem uses (uses : List Use) : Closed [] (uses.map .use) := by
  induction uses with
  | nil => exact .nil
  | cons use rest ih => exact .use use ih

theorem inBlock (closed : Closed names steps) : Closed [] (Statement.blockSteps steps) :=
  .block closed .nil

/-- Closed steps let the scope grow by what they declare. -/
theorem grows (closed : Closed names steps) {before after : Scope} (bounded : before.Bounded)
    (ran : before.run steps = .ok after) : before.Grows names after := by
  induction closed generalizing before after with
  | nil =>
    cases Scope.run_nil.mp ran
    exact .of_keeps (.refl before)
  | use use _ ih =>
    obtain ⟨middle, checked, ran⟩ := Scope.run_cons.mp ran
    have kept := Scope.Grows.of_keeps (Scope.check_keeps checked)
    simpa using kept.trans (ih (kept.bounded bounded) ran)
  | jump keyword _ ih =>
    obtain ⟨middle, jumped, ran⟩ := Scope.run_cons.mp ran
    obtain ⟨_, rfl⟩ := Scope.jump_ok.mp jumped
    exact ih bounded ran
  | declare name origin _ ih =>
    obtain ⟨middle, declared, ran⟩ := Scope.run_cons.mp ran
    have grown := Scope.declare_grows declared
    exact grown.trans (ih (grown.bounded bounded) ran)
  | block _ _ ihInner ihRest =>
    obtain ⟨inside, ran, later⟩ := Scope.run_append.mp ran
    obtain ⟨_, opened, ran⟩ := Scope.run_cons.mp ran
    cases opened
    obtain ⟨_, closed, later⟩ := Scope.run_cons.mp later
    cases closed
    have kept := Scope.Grows.of_keeps (Scope.closeBlock_keeps (ihInner (Scope.openBlock_bounded bounded) ran))
    simpa using kept.trans (ihRest (kept.bounded bounded) later)
  | loop _ _ ihInner ihRest =>
    obtain ⟨inside, ran, later⟩ := Scope.run_append.mp ran
    obtain ⟨_, opened, ran⟩ := Scope.run_cons.mp ran
    cases opened
    obtain ⟨_, closed, later⟩ := Scope.run_cons.mp later
    cases closed
    rw [Scope.closeLoop_eq bounded (ihInner (Scope.openLoop_bounded bounded) ran)] at later
    exact ihRest bounded later

theorem keeps (closed : Closed [] steps) {before after : Scope} (bounded : before.Bounded)
    (ran : before.run steps = .ok after) : before.Keeps after :=
  (closed.grows bounded ran).keeps

/-- The rounds of a loop leave the scope exactly as it was. -/
theorem loop_idle (closed : Closed names steps) {before after : Scope} (bounded : before.Bounded)
    (ran : before.run (.openLoop :: steps ++ [.closeLoop]) = .ok after) : after = before := by
  obtain ⟨inside, entered, left⟩ := Scope.run_append.mp ran
  obtain ⟨_, opened, rounds⟩ := Scope.run_cons.mp entered
  cases opened
  cases Scope.run_one.mp left
  exact Scope.closeLoop_eq bounded (closed.grows (Scope.openLoop_bounded bounded) rounds)

end Closed

namespace Statement

def declared : Statement → List String
  | binding _ name _ _ => [name]
  | _ => []

theorem round_closed {names more : List String} {head inner : List Step} (first : Closed names head)
    (body : Closed more inner) : Closed names (head ++ blockSteps inner) := by
  simpa using first.append body.inBlock

mutual

/-- The steps of a statement close all blocks, and only a new variable is left. -/
theorem steps_closed : (statement : Statement) → Closed statement.declared statement.steps
  | print _ => .uses _
  | binding mutable name _ value => (Closed.uses value.uses).append (.declare name _ .nil)
  | set _ _ _ => .uses _
  | run term => .uses term.uses
  | returning _ => .uses _
  | breaking => .jump _ .nil
  | continuing => .jump _ .nil
  | whileLoop condition body => by
    obtain ⟨names, inner⟩ := bodySteps_closed body
    simp only [steps, roundSteps, declared]
    exact .loop (round_closed (.uses condition.uses) inner) .nil
  | forLoop name range body => by
    obtain ⟨names, inner⟩ := bodySteps_closed body
    simp only [steps, roundSteps, declared]
    exact (Closed.uses range.uses).append (.loop (round_closed (.declare name _ .nil) inner) .nil)
  | ifBlock branches otherwise => (branchSteps_closed branches).append (defaultSteps_closed otherwise)
  | matchBlock subject arms otherwise => by
    simp only [steps, declared]
    exact (Closed.uses subject.uses).append ((armSteps_closed arms).append (defaultSteps_closed otherwise))

theorem bodySteps_closed : (statements : List Statement) → ∃ names, Closed names (bodySteps statements)
  | [] => ⟨[], .nil⟩
  | statement :: rest => by
    obtain ⟨names, later⟩ := bodySteps_closed rest
    exact ⟨_, (steps_closed statement).append later⟩

theorem branchSteps_closed : (branches : List (Expr × List Statement)) → Closed [] (branchSteps branches)
  | [] => .nil
  | (condition, body) :: rest => by
    obtain ⟨_, inner⟩ := bodySteps_closed body
    exact (Closed.uses condition.uses).append (inner.inBlock.append (branchSteps_closed rest))

theorem armSteps_closed : (arms : List (List Expr × List Statement)) → Closed [] (armSteps arms)
  | [] => .nil
  | (values, body) :: rest => by
    obtain ⟨_, inner⟩ := bodySteps_closed body
    simp only [armSteps, testSteps_eq]
    exact (Closed.uses _).append (inner.inBlock.append (armSteps_closed rest))

theorem defaultSteps_closed : (otherwise : Option (List Statement)) → Closed [] (defaultSteps otherwise)
  | none => .nil
  | some body => by
    obtain ⟨_, inner⟩ := bodySteps_closed body
    exact inner.inBlock

end

theorem block_closed (statements : List Statement) : Closed [] (blockSteps (bodySteps statements)) := by
  obtain ⟨_, inner⟩ := bodySteps_closed statements
  exact inner.inBlock

end Statement
end Lowering
