import Mathlib.Data.List.Nodup
import Lowering.Proofs.ScopeUses

/-! Instances of variables. Every declaration that a run comes by makes a new one, and a name
stands for the innermost instance of that name. Steps that go through in a scope give every
instance away at most once, and never turn to it again. -/

namespace Lowering

structure Instance where
  number : Nat
  origin : Origin
deriving DecidableEq, Repr

/-- The instances in the open blocks. Whether they still have a value is not recorded. -/
structure Instances where
  inner : List (String × Instance)
  outer : List (List (String × Instance))
  next : Nat
deriving DecidableEq, Repr

namespace Instances

def initial : Instances :=
  ⟨[], [], 0⟩

def blocks (instances : Instances) : List (List (String × Instance)) :=
  instances.inner :: instances.outer

def openBlock (instances : Instances) : Instances :=
  { instances with inner := [], outer := instances.blocks }

def closeBlock (instances : Instances) : Instances :=
  match instances.outer with
  | [] => instances
  | block :: outer => { instances with inner := block, outer }

def declare (instances : Instances) (name : String) (origin : Origin) : Instances :=
  { instances with
    inner := (name, ⟨instances.next, origin⟩) :: instances.inner
    next := instances.next + 1 }

def find? (instances : Instances) (name : String) : Option Instance :=
  innermost? instances.blocks name

def step (instances : Instances) : Step → Instances
  | .openBlock | .openLoop => instances.openBlock
  | .closeBlock | .closeLoop => instances.closeBlock
  | .declare name origin => instances.declare name origin
  | .use _ | .jump _ => instances

/-- The instances behind the steps. -/
def advance (instances : Instances) (steps : List Step) : Instances :=
  steps.foldl step instances

/-- The uses among the steps, each with the instance that its name stands for. -/
def resolve : Instances → List Step → List (Option Instance × Use)
  | _, [] => []
  | instances, .use use :: rest => (instances.find? use.name, use) :: resolve instances rest
  | instances, other :: rest => resolve (instances.step other) rest

end Instances

private theorem imp_of_mem {R S : α → β → Prop} {first : List α} {second : List β}
    (matched : List.Forall₂ R first second) (implies : ∀ one, ∀ other ∈ second, R one other → S one other) :
    List.Forall₂ S first second := by
  induction matched with
  | nil => exact .nil
  | cons head _ ih =>
    refine .cons (implies _ _ List.mem_cons_self head) (ih fun one other member => ?_)
    exact implies one other (List.mem_cons_of_mem _ member)

section Marking

variable {related marked : Binding → β → Prop} {name : String} {value : β}

theorem mem_of_innermost {blocks : List (List (String × β))} (found : innermost? blocks name = some value) :
    value ∈ blocks.flatten.map Prod.snd := by
  obtain ⟨block, inBlocks, here⟩ := List.exists_of_findSome?_eq_some found
  obtain ⟨first, rest, rfl, _⟩ := List.lookup_eq_some_iff.mp here
  exact List.mem_map.mpr ⟨(name, value), List.mem_flatten.mpr ⟨_, inBlocks, by simp⟩, rfl⟩

private theorem markFrame_apart (other : ∀ binding held, related binding held → held ≠ value → marked binding held)
    (same : ∀ binding, related binding value → marked { binding with moved := true } value)
    {frame : Frame} {block : List (String × β)}
    (matched : List.Forall₂ (fun one other => one.1 = other.1 ∧ related one.2 other.2) frame block)
    (distinct : (block.map Prod.snd).Nodup) (found : block.lookup name = some value) :
    List.Forall₂ (fun one other => one.1 = other.1 ∧ marked one.2 other.2) (Scope.markFrame name frame) block := by
  induction matched with
  | nil => cases found
  | @cons one held _ block entry rest ih =>
    obtain ⟨key, binding⟩ := one
    obtain ⟨key', held⟩ := held
    obtain ⟨rfl, values⟩ : key = key' ∧ related binding held := entry
    obtain ⟨apart, distinct⟩ := List.nodup_cons.mp distinct
    by_cases here : key = name
    · subst here
      cases List.lookup_cons_self.symm.trans found
      simp only [Scope.markFrame, if_true]
      refine .cons ⟨rfl, same binding values⟩ (imp_of_mem rest fun one another member kept => ?_)
      exact ⟨kept.1, other _ _ kept.2 fun equal => apart (List.mem_map.mpr ⟨another, member, equal⟩)⟩
    · simp only [List.lookup_cons, beq_eq_false_iff_ne.mpr (Ne.symm here)] at found
      simp only [Scope.markFrame, here, if_false]
      have later : value ∈ block.map Prod.snd := by
        obtain ⟨first, last, rfl, _⟩ := List.lookup_eq_some_iff.mp found
        simp
      exact .cons ⟨rfl, other binding held values fun equal => apart (equal ▸ later)⟩ (ih distinct found)

/-- Where all values are distinct, marking a name marks what belongs to the name's value. -/
theorem markFrames_apart (other : ∀ binding held, related binding held → held ≠ value → marked binding held)
    (same : ∀ binding, related binding value → marked { binding with moved := true } value)
    {frames : List Frame} {blocks : List (List (String × β))} (matched : Matched related frames blocks)
    (distinct : (blocks.flatten.map Prod.snd).Nodup) (found : innermost? blocks name = some value) :
    Matched marked (Scope.markFrames name frames) blocks := by
  have unmarked {frame : Frame} {block : List (String × β)} (absent : value ∉ block.map Prod.snd)
      (entries : List.Forall₂ (fun one other => one.1 = other.1 ∧ related one.2 other.2) frame block) :
      List.Forall₂ (fun one other => one.1 = other.1 ∧ marked one.2 other.2) frame block :=
    imp_of_mem entries fun one another member kept =>
      ⟨kept.1, other _ _ kept.2 fun equal => absent (List.mem_map.mpr ⟨another, member, equal⟩)⟩
  induction matched with
  | nil => cases found
  | @cons frame block frames blocks entries rest ih =>
    rw [List.flatten_cons, List.map_append] at distinct
    obtain ⟨inBlock, inRest, apart⟩ := List.nodup_append.mp distinct
    simp only [innermost?, List.findSome?_cons] at found
    simp only [Scope.markFrames]
    rcases Matched.block_lookup entries name with ⟨missing, missing'⟩ | ⟨_, held, there, there', _⟩
    · simp only [missing'] at found
      simp only [missing, Option.isSome_none, Bool.false_eq_true, if_false]
      have later := mem_of_innermost found
      exact .cons (unmarked (fun here => apart _ here _ later rfl) entries) (ih inRest found)
    · simp only [there', Option.some.injEq] at found
      subst found
      simp only [there, Option.isSome_some, if_true]
      refine .cons (markFrame_apart other same entries inBlock there') (imp_of_mem rest ?_)
      intro frame block member kept
      refine unmarked (fun later => ?_) kept
      obtain ⟨first, last, rfl, _⟩ := List.lookup_eq_some_iff.mp there'
      refine apart held (by simp) held ?_ rfl
      obtain ⟨entry, inside, equal⟩ := List.mem_map.mp later
      exact List.mem_map.mpr ⟨entry, List.mem_flatten.mpr ⟨block, member, inside⟩, equal⟩

end Marking

/-- The variables of a scope belong to instances of their own, and those that still have their
value have not been given away. -/
structure Agrees (scope : Scope) (instances : Instances) (given : List Instance) : Prop where
  matched : Matched (fun binding held => binding.origin = held.origin ∧ (binding.moved = false → held ∉ given))
    scope.frames instances.blocks
  distinct : (instances.blocks.flatten.map Prod.snd).Nodup
  older : ∀ held ∈ instances.blocks.flatten.map Prod.snd, held.number < instances.next
  past : ∀ held ∈ given, held.number < instances.next

namespace Agrees

variable {scope after : Scope} {instances : Instances} {given : List Instance}

theorem initial : Agrees .initial .initial [] :=
  ⟨.cons .nil .nil, .nil, nofun, nofun⟩

private theorem openBlock (agrees : Agrees scope instances given) :
    Agrees scope.openBlock instances.openBlock given :=
  ⟨.cons .nil agrees.matched, agrees.distinct, agrees.older, agrees.past⟩

private theorem closeBlock (agrees : Agrees scope instances given) :
    Agrees scope.closeBlock instances.closeBlock given := by
  obtain ⟨matched, distinct, older, past⟩ := agrees
  obtain ⟨inner, outer, depth⟩ := scope
  obtain ⟨block, blocks, next⟩ := instances
  cases matched with
  | cons entries rest =>
    cases rest with
    | nil => exact ⟨.cons entries .nil, distinct, older, past⟩
    | cons around others =>
      simp only [Instances.blocks, List.flatten_cons, List.map_append] at distinct older
      refine ⟨.cons around others, ?_, fun held member => ?_, past⟩
      · simpa [Instances.blocks, Instances.closeBlock] using (List.nodup_append.mp distinct).2.1
      · refine older held (List.mem_append_right _ ?_)
        simpa [Instances.blocks, Instances.closeBlock] using member

private theorem reframe {other : Scope} (agrees : Agrees scope instances given)
    (same : other.frames = scope.frames) : Agrees other instances given :=
  ⟨same ▸ agrees.matched, agrees.distinct, agrees.older, agrees.past⟩

private theorem declare {name : String} {origin : Origin} (agrees : Agrees scope instances given)
    (declared : scope.declare name origin = .ok after) :
    Agrees after (instances.declare name origin) given := by
  obtain ⟨_, rfl⟩ := Scope.declare_ok.mp declared
  obtain ⟨matched, distinct, older, past⟩ := agrees
  have unused (held : Instance) (there : held.number < instances.next) : held ≠ ⟨instances.next, origin⟩ := by
    rintro rfl
    exact Nat.lt_irrefl _ there
  cases matched with
  | cons entries rest =>
    refine ⟨.cons (.cons ⟨rfl, rfl, fun _ inGiven => unused _ (past _ inGiven) rfl⟩ entries) rest, ?_, ?_, ?_⟩
    · exact List.nodup_cons.mpr ⟨fun member => unused _ (older _ member) rfl, distinct⟩
    · intro held member
      rcases List.mem_cons.mp member with rfl | earlier
      · exact Nat.lt_succ_self _
      · exact Nat.lt_succ_of_lt (older held earlier)
    · exact fun held member => Nat.lt_succ_of_lt (past held member)

/-- What is marked is one variable, and with it one instance has been given away. -/
theorem markMoved {name : String} {held : Instance} (agrees : Agrees scope instances given)
    (there : instances.find? name = some held) : Agrees (scope.markMoved name) instances (held :: given) := by
  refine ⟨?_, agrees.distinct, agrees.older, fun gone member => ?_⟩
  · rw [Scope.frames_markMoved]
    -- The mark falls on the variable of this one instance, since no two variables share one.
    refine markFrames_apart (fun one other values apart => ?_) (fun one values => ?_)
      agrees.matched agrees.distinct there
    · refine ⟨values.1, fun whole member => ?_⟩
      rcases List.mem_cons.mp member with same | earlier
      · exact apart same
      · exact values.2 whole earlier
    · exact ⟨values.1, nofun⟩
  · rcases List.mem_cons.mp member with rfl | earlier
    · exact agrees.older _ (mem_of_innermost there)
    · exact agrees.past gone earlier

/-- A use turns to an instance that still has its value, and a move gives that instance away. -/
theorem check {use : Use} (agrees : Agrees scope instances given) (checked : scope.check use = .ok after) :
    ∃ (binding : Binding) (held : Instance), instances.find? use.name = some held ∧ held ∉ given ∧
      binding.origin = held.origin ∧
      binding.Allows scope.loopDepth use ∧
      Agrees after instances (if use.isMove then held :: given else given) := by
  obtain ⟨binding, found, whole, allowed, rfl⟩ := Scope.check_ok.mp checked
  obtain ⟨held, there, origin, kept⟩ := agrees.matched.counterpart found
  refine ⟨binding, held, there, kept whole, origin, allowed, ?_⟩
  unfold Scope.used
  split
  · exact agrees.markMoved there
  · exact agrees

theorem step {step : Step} (agrees : Agrees scope instances given) (stepped : scope.step step = .ok after)
    (other : ∀ use, step ≠ .use use) : Agrees after (instances.step step) given := by
  cases step with
  | openBlock =>
    cases stepped
    exact agrees.openBlock
  | closeBlock =>
    cases stepped
    exact agrees.closeBlock
  | openLoop =>
    cases stepped
    exact agrees.openBlock.reframe rfl
  | closeLoop =>
    cases stepped
    exact agrees.closeBlock.reframe rfl
  | declare name origin => exact agrees.declare stepped
  | use use => exact absurd rfl (other use)
  | jump keyword =>
    obtain ⟨_, rfl⟩ := Scope.jump_ok.mp stepped
    exact agrees

end Agrees

namespace Instances

/-- The use is one that a variable of the instance's origin allows at some loop depth. -/
def Admits (entry : Option Instance × Use) : Prop :=
  ∃ (binding : Binding) (held : Instance) (depth : Nat),
    entry.1 = some held ∧ binding.origin = held.origin ∧ binding.Allows depth entry.2

/-- No later use turns to an instance that an earlier one gives away. -/
def NoneAfterMove (entries : List (Option Instance × Use)) : Prop :=
  entries.Pairwise fun earlier later => earlier.2.isMove = true → earlier.1 ≠ later.1

theorem resolve_sound {steps : List Step} {scope after : Scope} {instances : Instances}
    {given : List Instance} (agrees : Agrees scope instances given) (ran : scope.run steps = .ok after) :
    (∀ entry ∈ instances.resolve steps, Admits entry ∧ ∀ held ∈ given, entry.1 ≠ some held) ∧
      NoneAfterMove (instances.resolve steps) := by
  induction steps generalizing scope instances given with
  | nil => exact ⟨nofun, .nil⟩
  | cons step rest ih =>
    obtain ⟨middle, stepped, later⟩ := Scope.run_cons.mp ran
    cases step with
    | use use =>
      obtain ⟨binding, held, there, kept, origin, allowed, next⟩ := agrees.check stepped
      obtain ⟨admitted, apart⟩ := ih next later
      rw [resolve, there]
      refine ⟨?_, .cons ?_ apart⟩
      · intro entry member
        rcases List.mem_cons.mp member with rfl | inRest
        · refine ⟨⟨binding, held, _, rfl, origin, allowed⟩, fun gone inGiven same => ?_⟩
          cases same
          exact kept inGiven
        · refine ⟨(admitted entry inRest).1, fun gone inGiven => (admitted entry inRest).2 gone ?_⟩
          split
          · exact List.mem_cons_of_mem _ inGiven
          · exact inGiven
      · intro entry inRest moves same
        refine (admitted entry inRest).2 held ?_ same.symm
        rw [if_pos moves]
        exact List.mem_cons_self
    | _ => exact ih (agrees.step stepped nofun) later

/-- Behind steps that go through, the variables belong to the instances behind those steps. Whatever one of
the steps gives away is gone by then. -/
theorem advance_agrees {steps : List Step} {scope after : Scope} {instances : Instances} {given : List Instance}
    (agrees : Agrees scope instances given) (ran : scope.run steps = .ok after) :
    ∃ gone, Agrees after (instances.advance steps) gone ∧ given ⊆ gone ∧
      ∀ entry ∈ instances.resolve steps, entry.2.isMove = true → ∀ held, entry.1 = some held → held ∈ gone := by
  induction steps generalizing scope instances given with
  | nil =>
    cases Scope.run_nil.mp ran
    exact ⟨given, agrees, List.Subset.refl _, nofun⟩
  | cons step rest ih =>
    obtain ⟨middle, stepped, later⟩ := Scope.run_cons.mp ran
    cases step with
    | use use =>
      obtain ⟨_, held, there, _, _, _, next⟩ := agrees.check stepped
      obtain ⟨gone, ended, kept, moved⟩ := ih next later
      refine ⟨gone, ended, fun one member => kept ?_, fun entry member moves one same => ?_⟩
      · split
        · exact List.mem_cons_of_mem _ member
        · exact member
      · rw [resolve, there] at member
        rcases List.mem_cons.mp member with rfl | inRest
        · cases same
          apply kept
          rw [if_pos moves]
          exact List.mem_cons_self
        · exact moved entry inRest moves one same
    | _ => exact ih (agrees.step stepped nofun) later

/-- Every use in a run finds an instance that allows it and has not been given away before. -/
theorem resolve_of_run {steps : List Step} {after : Scope} (ran : Scope.initial.run steps = .ok after) :
    (∀ entry ∈ initial.resolve steps, Admits entry) ∧ NoneAfterMove (initial.resolve steps) := by
  obtain ⟨admitted, apart⟩ := resolve_sound .initial ran
  exact ⟨fun entry member => (admitted entry member).1, apart⟩

end Instances
end Lowering
