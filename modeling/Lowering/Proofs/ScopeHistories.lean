import Mathlib.Data.List.Induction
import Mathlib.Data.List.Infix
import Mathlib.Data.List.Nodup
import Lowering.Proofs.ActionEffects
import Lowering.Proofs.ScopeFreedom

/-! What becomes of a scope under steps in any order, with those among them that are refused and those that
close more than was opened. A scope is looked at block by block, the function's own first: a block stays
in its place until it is closed, and until then no variable in it is lost, or whole again after a move. -/

namespace Lowering

namespace Action

/-- To ask a question of the scope is to change the scope into itself where there is an answer. -/
private theorem asking_eq (question : Scope → Except Error α) :
    (fun _ => ()) <$> inspect question = change fun scope => (fun _ => scope) <$> question scope := by
  funext before
  have asked : inspect question before = (question before.scope, before) := rfl
  rw [map_eq_pure_bind]
  cases answered : question before.scope with
  | ok value =>
    have same : (fun _ => before.scope) <$> question before.scope = .ok before.scope := by
      rw [answered]
      rfl
    rw [bind_of_ok (asked.trans (by rw [answered])), change_of_ok same]
    rfl
  | error error =>
    rw [bind_of_error (asked.trans (by rw [answered])), change_of_error (by rw [answered]; rfl)]

end Action

namespace Step

/-- The action that takes a scope through a step. -/
def action : Step → Action Unit
  | openBlock => Action.change fun scope => .ok scope.openBlock
  | closeBlock => Action.change fun scope => .ok scope.closeBlock
  | openLoop => Action.change fun scope => .ok scope.openLoop
  | closeLoop => Action.change fun scope => .ok scope.closeLoop
  | declare name origin => Action.declare name origin
  | use (.read name) => (fun _ => ()) <$> Action.readable name
  | use (.set name) | use (.change name) => (fun _ => ()) <$> Action.writable name
  | use (.pass name accessor) => Action.pass name accessor
  | jump keyword => (fun _ => ()) <$> Statement.jumpCode keyword

theorem action_eq (step : Step) : step.action = Action.change (·.step step) := by
  cases step with
  | openBlock | closeBlock | openLoop | closeLoop | declare => rfl
  | use use =>
    cases use with
    | read | set | change => exact Action.asking_eq _
    | pass => rfl
  | jump keyword =>
    funext before
    have asked : Action.inspect (fun scope => .ok scope.isInLoop) before = (.ok before.scope.isInLoop, before) := rfl
    rw [action, map_eq_pure_bind, Statement.jumpCode, bind_assoc, Action.bind_of_ok asked]
    cases inside : before.scope.isInLoop with
    | true =>
      have same : before.scope.step (.jump keyword) = .ok before.scope := if_pos inside
      rw [Action.change_of_ok same]
      rfl
    | false =>
      have refused : before.scope.step (.jump keyword) = .error (.misuse (.outsideLoop keyword)) :=
        if_neg (ne_true_of_eq_false inside)
      rw [Action.change_of_error refused]
      rfl

theorem action_of_error {step : Step} {before : Work} {error : Error} (refused : before.scope.step step = .error error) :
    step.action before = (.error error, before) := by
  rw [action_eq, Action.change_of_error refused]

/-- A step is taken as a whole or not at all. -/
theorem action_run (step : Step) (before : Work) :
    (∃ scope, before.scope.step step = .ok scope ∧ step.action before = (.ok (), { before with scope })) ∨
      ∃ error, before.scope.step step = .error error ∧ step.action before = (.error error, before) := by
  rw [action_eq]
  cases stepped : before.scope.step step with
  | ok scope => exact .inl ⟨scope, rfl, Action.change_of_ok stepped⟩
  | error error => exact .inr ⟨error, rfl, Action.change_of_error stepped⟩

end Step

section Behind

/-- The work behind the steps, each of which is tried whatever became of those before it. -/
def Work.behind (work : Work) (steps : List Step) : Work :=
  steps.foldl (fun work step => (step.action work).2) work

theorem Work.behind_append (work : Work) (first last : List Step) :
    work.behind (first ++ last) = (work.behind first).behind last :=
  List.foldl_append

/-- What holds of a scope holds behind the steps if those of them that go through keep it. -/
theorem Work.behind_of_steps {work : Work} {steps : List Step} (holds : Scope → Prop) (start : holds work.scope)
    (each : ∀ first step, first ++ [step] <+: steps →
      (work.behind first).scope.step step = .ok (work.behind (first ++ [step])).scope →
      holds (work.behind first).scope → holds (work.behind (first ++ [step])).scope) :
    holds (work.behind steps).scope := by
  induction steps using List.reverseRecOn with
  | nil => exact start
  | append_singleton first step ih =>
    have before := ih fun earlier one inside => each earlier one (inside.trans (List.prefix_append _ _))
    have last : work.behind (first ++ [step]) = (step.action (work.behind first)).2 := work.behind_append first [step]
    rcases step.action_run (work.behind first) with ⟨scope, stepped, ran⟩ | ⟨error, _, ran⟩
    · refine each first step (List.prefix_refl _) ?_ before
      rw [last, ran, stepped]
    -- A step that is refused leaves the work as it is.
    · rw [last, ran]
      exact before

end Behind

namespace Scope

section Levels

/-- What the block at a level has under a name. The level is the number of blocks around it, so the
function's own block is at level zero. -/
def entryAt? (frames : List Frame) (level : Nat) (name : String) : Option Binding :=
  frames.reverse[level]?.bind (·.lookup name)

/-- The name stands for its variable in the block at this level, since no block within has one. -/
structure Stands (frames : List Frame) (level : Nat) (name : String) (binding : Binding) : Prop where
  held : entryAt? frames level name = some binding
  alone : ∀ inner, level < inner → entryAt? frames inner name = none

variable {frames : List Frame} {frame : Frame} {level : Nat} {name : String} {binding : Binding}

theorem entryAt?_cons (frame : Frame) (frames : List Frame) (level : Nat) (name : String) :
    entryAt? (frame :: frames) level name =
      if level = frames.length then frame.lookup name else entryAt? frames level name := by
  simp only [entryAt?, List.reverse_cons, List.getElem?_append, List.length_reverse]
  rcases Nat.lt_trichotomy level frames.length with inside | rfl | outside
  · rw [if_pos inside, if_neg (Nat.ne_of_lt inside)]
  · simp
  · have beyond : [frame].length ≤ level - frames.length := Nat.sub_pos_of_lt outside
    rw [if_neg (Nat.lt_asymm outside), if_neg (Nat.ne_of_gt outside), List.getElem?_eq_none beyond,
      List.getElem?_eq_none (by simpa using Nat.le_of_lt outside)]

theorem entryAt?_eq_none (outside : frames.length ≤ level) (name : String) : entryAt? frames level name = none := by
  rw [entryAt?, List.getElem?_eq_none (by rwa [List.length_reverse]), Option.bind_none]

theorem level_lt (held : entryAt? frames level name = some binding) : level < frames.length := by
  by_contra outside
  cases held.symm.trans (entryAt?_eq_none (Nat.le_of_not_lt outside) name)

/-- A block without the name makes no difference to what is found under it. -/
theorem entryAt?_cons_none (missing : frame.lookup name = none) (level : Nat) :
    entryAt? (frame :: frames) level name = entryAt? frames level name := by
  rw [entryAt?_cons]
  split
  next here => rw [missing, entryAt?_eq_none (Nat.le_of_eq here.symm)]
  next => rfl

namespace Stands

theorem of_inner (held : frame.lookup name = some binding) (frames : List Frame) :
    Stands (frame :: frames) frames.length name binding := by
  constructor
  · rw [entryAt?_cons, if_pos rfl, held]
  · exact fun inner within => entryAt?_eq_none within name

theorem cons_none (missing : frame.lookup name = none) :
    Stands (frame :: frames) level name binding ↔ Stands frames level name binding := by
  constructor
  · rintro ⟨held, alone⟩
    simp only [entryAt?_cons_none missing] at held alone
    exact ⟨held, alone⟩
  · rintro ⟨held, alone⟩
    constructor
    · rwa [entryAt?_cons_none missing]
    · simpa only [entryAt?_cons_none missing]

/-- A name stands for one variable only. -/
theorem unique {other : Nat} {held : Binding} (stands : Stands frames level name binding)
    (stands' : Stands frames other name held) : level = other ∧ binding = held := by
  rcases Nat.lt_trichotomy level other with within | rfl | within
  · cases (stands.alone other within).symm.trans stands'.held
  · exact ⟨rfl, Option.some.inj (stands.held.symm.trans stands'.held)⟩
  · cases (stands'.alone level within).symm.trans stands.held

end Stands

/-- The innermost variable of a name is the one in the block at the highest level. -/
theorem innermost?_iff : innermost? frames name = some binding ↔ ∃ level, Stands frames level name binding := by
  induction frames with
  | nil => exact iff_of_false nofun fun ⟨_, stands⟩ => nomatch stands.held
  | cons frame frames ih =>
    rw [innermost?, List.findSome?_cons]
    cases here : frame.lookup name with
    | none =>
      simp only [Stands.cons_none here]
      exact ih
    | some held =>
      constructor
      · rintro same
        cases same
        exact ⟨_, .of_inner here frames⟩
      · rintro ⟨level, stands⟩
        rw [(stands.unique (.of_inner here frames)).2]

theorem length_markFrames (name : String) (frames : List Frame) : (markFrames name frames).length = frames.length := by
  induction frames with
  | nil => rfl
  | cons frame frames ih =>
    rw [markFrames]
    split
    · rfl
    · rw [List.length_cons, ih, List.length_cons]

/-- Marking a name marks the variable that it stands for, and nothing else. -/
theorem entryAt?_markFrames (stands : Stands frames level name binding) (inner : Nat) (other : String) :
    entryAt? (markFrames name frames) inner other =
      if inner = level ∧ other = name then some { binding with moved := true } else entryAt? frames inner other := by
  induction frames with
  | nil => cases stands.held
  | cons frame frames ih =>
    cases here : frame.lookup name with
    | none =>
      have stands := (Stands.cons_none here).mp stands
      have within := level_lt stands.held
      rw [markFrames, here, if_neg (by simp), entryAt?_cons, entryAt?_cons, length_markFrames, ih stands]
      split
      next innermost => rw [if_neg (by omega)]
      next => rfl
    | some held =>
      obtain ⟨rfl, rfl⟩ := stands.unique (.of_inner here frames)
      rw [markFrames, here, if_pos Option.isSome_some, entryAt?_cons, entryAt?_cons, lookup_markFrame, here]
      by_cases innermost : inner = frames.length
      · simp [innermost, eq_comm]
      · simp [innermost]

end Levels

section Steps

variable {before after : Scope} {level : Nat} {name : String} {binding : Binding}

theorem find?_iff : before.find? name = some binding ↔ ∃ level, Stands before.frames level name binding :=
  innermost?_iff

private theorem related_same (entry : Option Binding) : Option.Rel Binding.Freer entry entry := by
  cases entry with
  | none => exact .none
  | some binding => exact .some (.refl binding)

theorem entryAt?_openBlock (scope : Scope) (level : Nat) (name : String) :
    entryAt? scope.openBlock.frames level name = entryAt? scope.frames level name :=
  entryAt?_cons_none rfl level

theorem entryAt?_closeBlock {scope : Scope} (opened : level < scope.closeBlock.frames.length) (name : String) :
    entryAt? scope.closeBlock.frames level name = entryAt? scope.frames level name := by
  obtain ⟨inner, outer, depth⟩ := scope
  cases outer with
  | nil => rfl
  | cons frame outer => exact ((entryAt?_cons inner _ level name).trans (if_neg (Nat.ne_of_lt opened))).symm

theorem entryAt?_used {use : Use} (found : before.find? use.name = some binding) (level : Nat) (name : String) :
    Option.Rel Binding.Freer (entryAt? before.frames level name) (entryAt? (before.used use).frames level name) := by
  obtain ⟨holder, stands⟩ := find?_iff.mp found
  unfold used
  split
  · rw [frames_markMoved, entryAt?_markFrames stands]
    split
    next here =>
      rw [here.1, here.2, stands.held]
      exact .some ⟨rfl, rfl, fun _ => rfl⟩
    next => exact related_same _
  · exact related_same _

/-- A step that goes through leaves every variable in the blocks that stay open, at most moved, and
adds none unless it declares one in the innermost block, where the name was not in use. -/
theorem step_entryAt? {step : Step} (stepped : before.step step = .ok after) (opened : level < after.frames.length)
    (name : String) :
    (∃ origin, step = .declare name origin ∧ before.frames.length = level + 1 ∧ entryAt? before.frames level name = none) ∨
      Option.Rel Binding.Freer (entryAt? before.frames level name) (entryAt? after.frames level name) := by
  cases step with
  | openBlock | openLoop =>
    cases stepped
    exact .inr (entryAt?_openBlock before level name ▸ related_same _)
  | closeBlock | closeLoop =>
    cases stepped
    exact .inr (entryAt?_closeBlock opened name ▸ related_same _)
  | declare given origin =>
    obtain ⟨unused, rfl⟩ := declare_ok.mp stepped
    obtain ⟨inner, outer, depth⟩ := before
    simp only [frames, entryAt?_cons]
    by_cases innermost : level = outer.length
    · subst innermost
      by_cases same : name = given
      · subst same
        exact .inl ⟨origin, rfl, rfl, by rwa [if_pos rfl]⟩
      · right
        rw [if_pos rfl, if_pos rfl, List.lookup_cons, beq_eq_false_iff_ne.mpr same]
        exact related_same _
    · right
      rw [if_neg innermost, if_neg innermost]
      exact related_same _
  | use use =>
    obtain ⟨binding, found, _, _, rfl⟩ := check_ok.mp stepped
    exact .inr (entryAt?_used found level name)
  | jump keyword =>
    obtain ⟨_, rfl⟩ := jump_ok.mp stepped
    exact .inr (related_same _)

theorem entry_kept {step : Step} (held : entryAt? before.frames level name = some binding)
    (stepped : before.step step = .ok after) (opened : level < after.frames.length) :
    ∃ left, entryAt? after.frames level name = some left ∧ binding.Freer left := by
  rcases step_entryAt? stepped opened name with ⟨_, _, _, unused⟩ | related
  · cases unused.symm.trans held
  · rw [held] at related
    generalize entryAt? after.frames level name = ended at related ⊢
    cases related with
    | some freer => exact ⟨_, rfl, freer⟩

/-- A name goes on standing for a variable whose block stays open, unless it is declared in a block within. -/
theorem Stands.step {step : Step} (stands : Stands before.frames level name binding)
    (stepped : before.step step = .ok after) (opened : level < after.frames.length)
    (apart : ∀ origin, step = .declare name origin → before.frames.length = level + 1) :
    ∃ left, Stands after.frames level name left ∧ binding.Freer left := by
  obtain ⟨left, held, freer⟩ := entry_kept stands.held stepped opened
  refine ⟨left, ⟨held, fun inner within => ?_⟩, freer⟩
  -- Only a declaration could put the name into a block within.
  by_cases there : inner < after.frames.length
  · rcases step_entryAt? stepped there name with ⟨origin, declares, innermost, _⟩ | related
    · have around := apart origin declares
      omega
    · rw [stands.alone inner within] at related
      generalize entryAt? after.frames inner name = ended at related ⊢
      cases related
      rfl
  · exact entryAt?_eq_none (Nat.le_of_not_lt there) name

/-- No block has two variables of a name. -/
def Distinct (scope : Scope) : Prop :=
  ∀ frame ∈ scope.frames, (frame.map Prod.fst).Nodup

theorem initial_distinct : Distinct initial := by
  intro frame member
  cases List.mem_singleton.mp member
  exact List.nodup_nil

theorem Distinct.step {step : Step} (distinct : Distinct before) (stepped : before.step step = .ok after) : Distinct after := by
  have opened : Distinct before.openBlock := List.forall_mem_cons.mpr ⟨List.nodup_nil, distinct⟩
  have closed : Distinct before.closeBlock := by
    obtain ⟨inner, outer, depth⟩ := before
    cases outer with
    | nil => exact distinct
    | cons frame outer => exact (List.forall_mem_cons.mp distinct).2
  cases step with
  | openBlock | openLoop =>
    cases stepped
    exact opened
  | closeBlock | closeLoop =>
    cases stepped
    exact closed
  | declare given origin =>
    obtain ⟨unused, rfl⟩ := declare_ok.mp stepped
    obtain ⟨inner, others⟩ := List.forall_mem_cons.mp distinct
    exact List.forall_mem_cons.mpr ⟨List.nodup_cons.mpr ⟨lookup_eq_none.mp unused, inner⟩, others⟩
  | use use =>
    intro frame member
    obtain ⟨old, among, entries⟩ := exists_left_of_forall₂ (check_keeps stepped).frames member
    have names : old.map Prod.fst = frame.map Prod.fst := by
      rw [← List.forall₂_eq_eq_eq, List.forall₂_map_left_iff, List.forall₂_map_right_iff]
      exact entries.imp fun _ _ entry => entry.1
    rw [← names]
    exact distinct old among
  | jump keyword =>
    obtain ⟨_, rfl⟩ := jump_ok.mp stepped
    exact distinct

theorem pass_idle {accessor : Accessor} (keeps : accessor ≠ .move) (passed : before.pass name accessor = .ok after) :
    before = after := by
  obtain ⟨_, _, _, _, rfl⟩ := pass_ok.mp passed
  cases accessor with
  | move => exact absurd rfl keeps
  | look | mutate | copy => rfl

/-- A variable that is moved refuses every use. -/
theorem check_moved {use : Use} (found : before.find? use.name = some binding) (gone : binding.moved = true) :
    before.check use = .error (.misuse (.afterMove use.name)) := by
  have refused : before.readable use.name = .error (.misuse (.afterMove use.name)) := by
    rw [readable, found]
    exact if_pos gone
  cases use with
  | read name | set name | change name | pass name accessor =>
    simp only [Use.name] at refused ⊢
    simp only [check, writable, pass, refused]
    rfl

/-- Within the block of the variable that a name stands for, the name can be declared anew. -/
theorem declare_within (stands : Stands before.frames level name binding) (within : level + 1 < before.frames.length)
    (origin : Origin) :
    ∃ after, before.declare name origin = .ok after ∧ after.readable name = .ok ⟨origin, false, after.loopDepth⟩ := by
  have unused := stands.alone before.outer.length (Nat.lt_of_succ_lt_succ within)
  rw [frames, entryAt?_cons, if_pos rfl] at unused
  refine ⟨_, declare_ok.mpr ⟨unused, rfl⟩, readable_ok.mpr ⟨?_, rfl⟩⟩
  rw [find?, frames, List.findSome?_cons, List.lookup_cons_self]

end Steps

/-- All that the block at a level had is still there, moved at most. -/
def BlockLasts (before after : Scope) (level : Nat) : Prop :=
  ∀ name binding, entryAt? before.frames level name = some binding →
    ∃ left, entryAt? after.frames level name = some left ∧ binding.Freer left

/-- The scope behind is the scope before, but for the mark on the one variable that the name stands for. -/
structure Marks (before after : Scope) (level : Nat) (name : String) (binding : Binding) : Prop where
  found : before.find? name = some binding
  stood : Stands before.frames level name binding
  whole : binding.moved = false
  loopDepth : after.loopDepth = before.loopDepth
  blocks : after.frames.length = before.frames.length
  entries : ∀ inner other, entryAt? after.frames inner other =
    if inner = level ∧ other = name then some { binding with moved := true } else entryAt? before.frames inner other

namespace Marks

variable {before after : Scope} {level : Nat} {name : String} {binding : Binding}

theorem of_pass (passed : before.pass name .move = .ok after) : ∃ level binding, before.Marks after level name binding := by
  obtain ⟨binding, found, whole, _, rfl⟩ := pass_ok.mp passed
  obtain ⟨level, stood⟩ := find?_iff.mp found
  have marked : (before.used (.pass name .move)).frames = markFrames name before.frames := frames_markMoved before name
  refine ⟨level, binding, found, stood, whole, loopDepth_markMoved before name, ?_, ?_⟩
  · rw [marked, length_markFrames]
  · rw [marked]
    exact entryAt?_markFrames stood

theorem stands (marks : before.Marks after level name binding) :
    Stands after.frames level name { binding with moved := true } := by
  constructor
  · rw [marks.entries, if_pos ⟨rfl, rfl⟩]
  · intro inner within
    rw [marks.entries, if_neg fun same => Nat.ne_of_gt within same.1]
    exact marks.stood.alone inner within

end Marks

end Scope

section Histories

variable {work : Work} {steps : List Step} {level : Nat} {name : String} {binding : Binding}

open Scope (entryAt? Stands)

/-- The steps leave a name to the variable in the block at a level: they never close that block, and they
declare the name, if at all, where that block is the innermost. -/
structure Work.Spares (work : Work) (level : Nat) (name : String) (steps : List Step) : Prop where
  opened : ∀ first, first <+: steps → level < (work.behind first).scope.frames.length
  apart : ∀ first origin, first ++ [.declare name origin] <+: steps → (work.behind first).scope.frames.length = level + 1

/-- As long as a block is open, nothing in it is lost. -/
theorem Work.blockLasts_behind (opened : ∀ first, first <+: steps → level < (work.behind first).scope.frames.length) :
    work.scope.BlockLasts (work.behind steps).scope level := by
  intro name binding held
  refine behind_of_steps (fun scope => ∃ left, entryAt? scope.frames level name = some left ∧ binding.Freer left)
    ⟨binding, held, .refl binding⟩ ?_
  rintro first step within stepped ⟨middle, held, freer⟩
  obtain ⟨left, ended, later⟩ := Scope.entry_kept held stepped (opened _ within)
  exact ⟨left, ended, freer.trans later⟩

theorem Work.stands_behind (stands : Stands work.scope.frames level name binding) (spares : work.Spares level name steps) :
    ∃ left, Stands (work.behind steps).scope.frames level name left ∧ binding.Freer left := by
  refine behind_of_steps (fun scope => ∃ left, Stands scope.frames level name left ∧ binding.Freer left)
    ⟨binding, stands, .refl binding⟩ ?_
  rintro first step within stepped ⟨middle, stands, freer⟩
  obtain ⟨left, ended, later⟩ := stands.step stepped (spares.opened _ within) fun origin declares =>
    spares.apart first origin (declares ▸ within)
  exact ⟨left, ended, freer.trans later⟩

end Histories

/-- Whatever is done to a new scope, in whatever order, some block is open and no block has two variables
of a name. From then on nothing in the function's own block is lost, nor in any other block while it is
open, and no mark of a move is taken back. An action that fails changes nothing, nor does a question, nor
handing a variable over without moving it. A move marks the variable that the name stands for and nothing
else, and then every use of the name is refused until that block is closed or the name is declared in
a block within, where it stands for the new variable. -/
theorem any_order_loses_nothing (events : List Event) (steps : List Step) :
    let before := Work.behind ⟨.initial, events⟩ steps
    0 < before.scope.frames.length ∧ before.scope.Distinct ∧
    (∀ later, before.scope.BlockLasts (before.behind later).scope 0) ∧
    (∀ later level, (∀ first, first <+: later → level < (before.behind first).scope.frames.length) →
      before.scope.BlockLasts (before.behind later).scope level) ∧
    (∀ step error after, Step.action step before = (.error error, after) → after = before) ∧
    (∀ name, (Action.readable name before).2 = before ∧ (Action.writable name before).2 = before) ∧
    (∀ name accessor after, accessor ≠ .move → Action.pass name accessor before = (.ok (), after) → after = before) ∧
    ∀ name after, Action.pass name .move before = (.ok (), after) →
      ∃ level binding, before.scope.Marks after.scope level name binding ∧ after.events = before.events ∧
        ∀ later, after.Spares level name later →
          (∀ use : Use, use.name = name →
            (Step.use use).action (after.behind later) = (.error (.misuse (.afterMove name)), after.behind later)) ∧
          ∀ origin, level + 1 < (after.behind later).scope.frames.length →
            ∃ again, Action.declare name origin (after.behind later) = (.ok (), again) ∧
              (Action.readable name again).1 = .ok ⟨origin, false, again.scope.loopDepth⟩ := by
  intro before
  refine ⟨Nat.succ_pos _, ?_, ?_, ?_, ?_, ?_, ?_, ?_⟩
  · exact Work.behind_of_steps Scope.Distinct Scope.initial_distinct fun _ _ _ stepped distinct => distinct.step stepped
  · exact fun later => Work.blockLasts_behind fun _ _ => Nat.succ_pos _
  · exact fun later level opened => Work.blockLasts_behind opened
  · intro step error after ran
    rcases step.action_run before with ⟨_, _, went⟩ | ⟨_, _, refused⟩
    · cases went.symm.trans ran
    · exact congrArg Prod.snd (ran.symm.trans refused)
  · exact fun name => ⟨rfl, rfl⟩
  · intro name accessor after keeps ran
    obtain ⟨scope, passed, rfl⟩ := Action.change_ok.mp ran
    rw [← Scope.pass_idle keeps passed]
  · intro name after ran
    obtain ⟨scope, passed, rfl⟩ := Action.change_ok.mp ran
    obtain ⟨level, binding, marks⟩ := Scope.Marks.of_pass passed
    refine ⟨level, binding, marks, rfl, fun later spares => ?_⟩
    obtain ⟨left, stands, freer⟩ := Work.stands_behind marks.stands spares
    constructor
    · rintro use rfl
      exact Step.action_of_error (Scope.check_moved (Scope.find?_iff.mpr ⟨level, stands⟩) (freer.moved rfl))
    · intro origin within
      obtain ⟨scope, declared, readable⟩ := Scope.declare_within stands within origin
      exact ⟨_, Action.change_of_ok declared, readable⟩

section Sample

/-- A variable declared in a loop shadows the parameter, and one block too many has been closed before. -/
private def shadowing : List Step :=
  [.declare "v" (.parameter .move), .closeBlock, .openLoop, .declare "v" (.declared true)]

/-- The two variables, the inner one given away or not. -/
private def shadowed (gone : Bool) : Work :=
  ⟨⟨[("v", ⟨.declared true, gone, 1⟩)], [[("v", ⟨.parameter .move, false, 0⟩)]], 1⟩, []⟩

/-- The loop is left from within a block in it, and the name is declared once more in vain. -/
private def leavingEarly : List Step :=
  [.declare "v" (.declared false), .openBlock, .use (.read "v"), .closeLoop, .openBlock]

private theorem behind_shadowing : Work.behind ⟨.initial, []⟩ shadowing = shadowed false := rfl

private theorem leavingEarly_open (gone : Bool) :
    ∀ first, first <+: leavingEarly → 1 < ((shadowed gone).behind first).scope.frames.length := by
  intro first within
  rw [← List.mem_inits] at within
  revert first gone
  decide

private theorem shadowed_spares : (shadowed true).Spares 1 "v" leavingEarly := by
  refine ⟨leavingEarly_open true, ?_⟩
  rintro first origin ⟨rest, whole⟩
  cases first with
  | nil => rfl
  | cons step first =>
    -- None of the other steps declares the name.
    have later : .declare "v" origin ∈ leavingEarly.tail := by
      rw [← whole]
      simp
    simp [leavingEarly] at later

theorem shadowing_variable_gone : ∃ before after, Work.behind ⟨.initial, []⟩ shadowing = before ∧
    (∀ first, first <+: leavingEarly → 1 < (before.behind first).scope.frames.length) ∧
    before.scope.BlockLasts (before.behind leavingEarly).scope 1 ∧
    Action.pass "v" .move before = (.ok (), after) ∧ after.Spares 1 "v" leavingEarly ∧
    (Step.use (.set "v")).action (after.behind leavingEarly) = (.error (.misuse (.afterMove "v")), after.behind leavingEarly) ∧
    ∃ again, Action.declare "v" (.declared false) (after.behind leavingEarly) = (.ok (), again) ∧
      (Action.readable "v" again).1 = .ok ⟨.declared false, false, again.scope.loopDepth⟩ := by
  have laws := any_order_loses_nothing [] shadowing
  rw [behind_shadowing] at laws
  obtain ⟨_, _, _, lasts, _, _, _, moves⟩ := laws
  have passed : Action.pass "v" .move (shadowed false) = (.ok (), shadowed true) := rfl
  obtain ⟨level, _, marks, _, later⟩ := moves _ _ passed
  obtain ⟨rfl, _⟩ := marks.stood.unique (.of_inner rfl _)
  obtain ⟨refused, renewed⟩ := later leavingEarly shadowed_spares
  have within : 1 + 1 < ((shadowed true).behind leavingEarly).scope.frames.length := by decide
  exact ⟨_, _, behind_shadowing, leavingEarly_open false, lasts _ 1 (leavingEarly_open false), passed, shadowed_spares,
    refused (.set "v") rfl, renewed (.declared false) within⟩

end Sample

end Lowering
