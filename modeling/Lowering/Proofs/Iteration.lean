import Mathlib
import Lowering.Proofs.IdleLoops
import Lowering.Proofs.MutationPermission

/-! What the body of a for loop may do to the collection that the loop goes through. Nothing is remembered of
the iteration but that a loop is open, so the collection cannot be given away, while it can be changed
wherever its variable allows that outside of the loop. -/

namespace Lowering

namespace Scope

/-- The variables of a block, counted from a number on. -/
def numberFrame (next : Nat) : Frame → List (String × Instance)
  | [] => []
  | (name, binding) :: rest => (name, ⟨next, binding.origin⟩) :: numberFrame (next + 1) rest

def numberFrames (next : Nat) : List Frame → List (List (String × Instance))
  | [] => []
  | frame :: rest => numberFrame next frame :: numberFrames (next + frame.length) rest

/-- Each variable of the scope as an instance of its own. -/
def instances (scope : Scope) : Instances :=
  ⟨numberFrame 0 scope.inner, numberFrames (0 + scope.inner.length) scope.outer, scope.frames.flatten.length⟩

theorem numberFrame_numbers (next : Nat) (frame : Frame) :
    (numberFrame next frame).map (·.2.number) = List.range' next frame.length := by
  induction frame generalizing next with
  | nil => rfl
  | cons entry rest ih => rw [numberFrame, List.map_cons, ih, List.length_cons, List.range'_succ]

theorem numberFrames_numbers (next : Nat) (frames : List Frame) :
    (numberFrames next frames).flatten.map (·.2.number) = List.range' next frames.flatten.length := by
  induction frames generalizing next with
  | nil => rfl
  | cons frame rest ih =>
    rw [numberFrames, List.flatten_cons, List.map_append, numberFrame_numbers, ih, List.flatten_cons,
      List.length_append, List.range'_append_1]

theorem numberFrame_matched (next : Nat) (frame : Frame) :
    List.Forall₂ (fun one other => one.1 = other.1 ∧ one.2.origin = other.2.origin) frame (numberFrame next frame) := by
  induction frame generalizing next with
  | nil => exact .nil
  | cons entry rest ih => exact .cons ⟨rfl, rfl⟩ (ih _)

theorem numberFrames_matched (next : Nat) (frames : List Frame) :
    Matched (fun binding held => binding.origin = held.origin) frames (numberFrames next frames) := by
  induction frames generalizing next with
  | nil => exact .nil
  | cons frame rest ih => exact .cons (numberFrame_matched next frame) (ih _)

theorem instances_agree (scope : Scope) : Agrees scope scope.instances [] := by
  have numbers : (scope.instances.blocks.flatten.map Prod.snd).map Instance.number =
      List.range' 0 scope.frames.flatten.length := by
    rw [List.map_map]
    exact numberFrames_numbers 0 scope.frames
  refine ⟨(numberFrames_matched 0 scope.frames).imp fun _ _ same => ⟨same, nofun⟩, ?_, ?_, nofun⟩
  · exact List.Nodup.of_map Instance.number (by rw [numbers]; exact List.nodup_range')
  · intro held member
    have counted := List.mem_map_of_mem (f := Instance.number) member
    rw [numbers, List.mem_range'_1] at counted
    rw [Nat.zero_add] at counted
    exact counted.2

/-- Marking what was moved before changes nothing. -/
theorem markFrame_moved {name : String} {binding : Binding} {frame : Frame} (found : frame.lookup name = some binding)
    (gone : binding.moved = true) : markFrame name frame = frame := by
  induction frame with
  | nil => rfl
  | cons entry rest ih =>
    obtain ⟨key, value⟩ := entry
    by_cases here : key = name
    · subst here
      cases List.lookup_cons_self.symm.trans found
      rw [markFrame, if_pos rfl, ← gone]
    · rw [List.lookup_cons, beq_eq_false_iff_ne.mpr (Ne.symm here)] at found
      rw [markFrame, if_neg here, ih found]

theorem markFrames_moved {name : String} {binding : Binding} {frames : List Frame}
    (found : innermost? frames name = some binding) (gone : binding.moved = true) : markFrames name frames = frames := by
  induction frames with
  | nil => rfl
  | cons frame rest ih =>
    rw [innermost?, List.findSome?_cons] at found
    cases there : frame.lookup name with
    | none =>
      rw [there] at found
      simp [markFrames, there, ih found]
    | some value =>
      rw [there] at found
      cases found
      simp [markFrames, there, markFrame_moved there gone]

end Scope

/-- A variable that was moved has given its instance away. -/
theorem Agrees.withhold {scope : Scope} {instances : Instances} {given : List Instance} {name : String}
    {binding : Binding} {held : Instance} (agrees : Agrees scope instances given)
    (found : scope.find? name = some binding) (gone : binding.moved = true)
    (there : instances.find? name = some held) : Agrees scope instances (held :: given) := by
  obtain ⟨matched, distinct, older, past⟩ := agrees.markMoved there
  rw [Scope.frames_markMoved, Scope.markFrames_moved found gone] at matched
  exact ⟨matched, distinct, older, past⟩

namespace Instances

variable {before middle after : Instances}

/-- The same instances in the same blocks, with new ones in the innermost. -/
def Extends (before after : Instances) : Prop :=
  ∃ new, after.blocks = (new ++ before.inner) :: before.outer

theorem Extends.refl (instances : Instances) : Extends instances instances :=
  ⟨[], rfl⟩

theorem Extends.trans (first : Extends before middle) (last : Extends middle after) : Extends before after := by
  obtain ⟨new, same⟩ := first
  obtain ⟨newer, whole⟩ := last
  obtain ⟨inner, outer⟩ := List.cons.inj same
  exact ⟨newer ++ new, by rw [whole, inner, outer, List.append_assoc]⟩

theorem declare_extends (instances : Instances) (name : String) (origin : Origin) :
    Extends instances (instances.declare name origin) :=
  ⟨[(name, ⟨instances.next, origin⟩)], rfl⟩

theorem closeBlock_blocks (opened : Extends before.openBlock after) : after.closeBlock.blocks = before.blocks := by
  obtain ⟨_, same⟩ := opened
  obtain ⟨inner, outer, next⟩ := after
  cases (List.cons.inj same).2
  rfl

theorem closeBlock_extends (opened : Extends before.openBlock after) : Extends before after.closeBlock :=
  ⟨[], closeBlock_blocks opened⟩

theorem advance_append (instances : Instances) (first last : List Step) :
    instances.advance (first ++ last) = (instances.advance first).advance last :=
  List.foldl_append

end Instances

theorem Closed.instances_extend {names : List String} {steps : List Step} (closed : Closed names steps) (instances : Instances) :
    instances.Extends (instances.advance steps) := by
  induction closed generalizing instances with
  | nil => exact .refl instances
  | use _ _ ih | jump _ _ ih => exact ih instances
  | declare name origin _ ih => exact (instances.declare_extends name origin).trans (ih _)
  | block _ _ ihInner ihRest | loop _ _ ihInner ihRest =>
    rw [Instances.advance_append]
    exact (Instances.closeBlock_extends (ihInner instances.openBlock)).trans (ihRest _)

/-- Behind the rounds of a loop the instances are those from before it. -/
theorem Closed.loop_blocks {names : List String} {steps : List Step} (closed : Closed names steps)
    (instances : Instances) : (instances.advance (.openLoop :: steps ++ [.closeLoop])).blocks = instances.blocks := by
  rw [Instances.advance_append]
  exact Instances.closeBlock_blocks (closed.instances_extend instances.openBlock)

theorem Binding.isMutable_congr {one other : Binding} (origin : one.origin = other.origin) :
    one.isMutable = other.isMutable := by
  unfold isMutable
  rw [origin]

/-- A variable from outside of a loop is not given away in its rounds, and changed only if it may be. One that
was moved before is not used at all. -/
theorem Scope.rounds_spare {scope after : Scope} {names : List String} {steps : List Step} {root : String}
    {binding : Binding} {held : Instance} (bounded : scope.Bounded) (closed : Closed names steps)
    (ran : scope.run (.openLoop :: steps ++ [.closeLoop]) = .ok after)
    (found : scope.find? root = some binding) (there : scope.instances.find? root = some held) :
    ∀ entry ∈ scope.instances.resolve (.openLoop :: steps ++ [.closeLoop]), entry.1 = some held →
      binding.moved = false ∧ entry.2.isMove = false ∧ (entry.2.mutates = true → binding.isMutable = true) := by
  intro entry member same
  have agrees := scope.instances_agree
  have whole : binding.moved = false := by
    by_contra gone
    have withheld := agrees.withhold found (by simpa using gone) there
    exact ((Instances.resolve_sound withheld ran).1 entry member).2 held List.mem_cons_self same
  refine ⟨whole, ?_, ?_⟩
  · obtain ⟨gone, ended, _, moved⟩ := Instances.advance_agrees agrees ran
    rw [closed.loop_idle bounded ran] at ended
    obtain ⟨other, there', _, kept⟩ := ended.matched.counterpart found
    rw [closed.loop_blocks] at there'
    cases there.symm.trans there'
    by_contra moves
    exact kept whole (moved entry member (by simpa using moves) held same)
  · intro mutates
    obtain ⟨one, other, depth, same', origin, allowed⟩ := ((Instances.resolve_sound agrees ran).1 entry member).1
    obtain ⟨mine, there', origin', _⟩ := agrees.matched.counterpart found
    cases there.symm.trans there'
    cases same.symm.trans same'
    rw [Binding.isMutable_congr (origin'.trans origin.symm)]
    exact Use.allows_mutation mutates allowed

namespace Statement

/-- The steps of a loop's rounds, each of which declares the loop's variable for an element. -/
def itemSteps (name : String) (body : List Statement) : List Step :=
  roundSteps [.declare name (.loopItem true)] (bodySteps body)

variable {context : BodyContext} {before ranged : Work} {name root : String} {collection : Expr}

/-- The variable at the root of a collection is still there when the loop's rounds begin. -/
theorem ranged_root {header : String × Bool} (rooted : collection.root? = some root)
    (ran : rangeCode context (.each collection) before = (.ok header, ranged)) :
    ∃ binding, ranged.scope.find? root = some binding := by
  have taken := (rangeCode_repeats (.refl context) (.each collection)).performs _ _ _ ran
  obtain ⟨rest, uses⟩ := Expr.uses_root rooted
  have read : .read root ∈ (Range.each collection).uses := by
    rw [Range.uses, uses]
    exact List.mem_cons_self
  obtain ⟨binding, found, _⟩ := Scope.holds_of_run taken read
  exact ⟨_, (Scope.run_find? taken root).trans (congrArg (Option.map _) found)⟩

/-- Storage is written out only where the variable at its root has a name to be written. -/
theorem root_spelled {signatures : Signatures} {form : Form} {expr : Expr} {text : String} {after : Work}
    (rooted : expr.root? = some root) (ran : expr.code signatures form before = (.ok text, after)) :
    ∃ word, Name.code root = .ok word := by
  induction expr using Expr.root?.induct generalizing form text after with
  | case1 name =>
    cases rooted
    simp only [Expr.code] at ran
    obtain ⟨_, _, _, ran⟩ := bind_ok.mp ran
    obtain ⟨word, _, spelled, _⟩ := bind_ok.mp ran
    exact ⟨word, (lift_ok.mp spelled).1⟩
  | case2 base name ih | case3 base position ih | case4 base ih =>
    simp only [Expr.code] at ran
    obtain ⟨_, _, within, _⟩ := bind_ok.mp ran
    exact ih rooted within
  | case5 expr _ _ _ _ => simp_all [Expr.root?]

theorem ranged_spelled {header : String × Bool} (rooted : collection.root? = some root)
    (ran : rangeCode context (.each collection) before = (.ok header, ranged)) : ∃ word, Name.code root = .ok word := by
  have stored : collection.isStored = true := by rw [Expr.isStored, rooted, Option.isSome_some]
  simp only [rangeCode, stored, if_true] at ran
  obtain ⟨_, _, within, _⟩ := bind_ok.mp ran
  exact root_spelled rooted within

theorem rounds_run {header : String × Bool} {body : List Statement} {written : StatementCode} {after : Work}
    (ranges : rangeCode context (.each collection) before = (.ok header, ranged))
    (ran : (forLoop name (.each collection) body).code context before = (.ok written, after)) :
    ranged.scope.run (itemSteps name body) = .ok after.scope := by
  have taken := code_performs context _ _ _ _ ran
  obtain ⟨middle, first, rounds⟩ := Scope.run_append.mp taken
  have same := (rangeCode_repeats (.refl context) (.each collection)).performs _ _ _ ranges
  cases first.symm.trans same
  exact rounds

/-- A body that takes the last element away from a collection. -/
def popping (root : String) : List Statement :=
  [.run (.method (.identifier root) .pop true [])]

theorem popping_written {word : String} {binding : Binding} (found : before.scope.find? root = some binding)
    (whole : binding.moved = false) (mutable : binding.isMutable = true) (spelled : Name.code root = .ok word) :
    ∃ block, listCode context (popping root) before = (.ok block, before) := by
  have readable : before.scope.readable root = .ok binding := Scope.readable_ok.mpr ⟨found, whole⟩
  have writable : before.scope.writable root = .ok binding := Scope.writable_ok.mpr ⟨found, whole, mutable⟩
  have checked : Method.pop.checkReceiver (.identifier root) before = (.ok (), before) :=
    bind_ok.mpr ⟨binding, before, Action.inspect_ok.mpr ⟨writable, rfl⟩, pure_ok.mpr ⟨rfl, rfl⟩⟩
  have target : (Expr.identifier root).code context.signatures .place before = (.ok word, before) := by
    simp only [Expr.code]
    refine bind_ok.mpr ⟨binding, before, Action.inspect_ok.mpr ⟨readable, rfl⟩, ?_⟩
    exact bind_ok.mpr ⟨word, before, lift_ok.mpr ⟨spelled, rfl⟩, pure_ok.mpr ⟨rfl, rfl⟩⟩
  have called : (Expr.method (.identifier root) .pop true []).code context.signatures .value before =
      (.ok (Method.pop.call word []), before) := by
    rw [Expr.code]
    refine bind_ok.mpr ⟨(), before, lift_ok.mpr ⟨rfl, rfl⟩, ?_⟩
    refine bind_ok.mpr ⟨(), before, checked, ?_⟩
    refine bind_ok.mpr ⟨word, before, target, ?_⟩
    exact bind_ok.mpr ⟨[], before, pure_ok.mpr ⟨rfl, rfl⟩, pure_ok.mpr ⟨rfl, rfl⟩⟩
  simp only [popping, listCode, code, bind_ok, pure_ok]
  exact ⟨_, _, before, ⟨_, before, called, rfl, rfl⟩, .empty, before, ⟨rfl, rfl⟩, rfl, rfl⟩

/-- The scope in which the body of a loop is written out. -/
def itemScope (scope : Scope) (name : String) : Scope :=
  { scope.openLoop with inner := [(name, ⟨.loopItem true, false, scope.loopDepth + 1⟩)] }

/-- A loop is written out where its body is, behind nothing but the declaration of its variable. -/
theorem forLoop_written {header : String × Bool} {word : String} {body : List Statement} {block : BodyCode} {left : Work}
    (spelled : Name.code name = .ok word) (ranges : rangeCode context (.each collection) before = (.ok header, ranged))
    (listed : listCode context body ⟨(itemScope ranged.scope name).openBlock, ranged.events⟩ = (.ok block, left)) :
    ∃ written after, (forLoop name (.each collection) body).code context before = (.ok written, after) := by
  have borrowed := rangeCode_borrows ranges
  have entered : Action.declare name (.loopItem header.2) ⟨ranged.scope.openLoop, ranged.events⟩ =
      (.ok (), ⟨itemScope ranged.scope name, ranged.events⟩) := by
    rw [borrowed]
    exact Action.change_ok.mpr ⟨_, Scope.declare_ok.mpr ⟨rfl, rfl⟩, rfl⟩
  have blocked : inBody (listCode context body) ⟨itemScope ranged.scope name, ranged.events⟩ =
      (.ok { block with text := Layout.indent 1 block.text }, { left with scope := left.scope.closeBlock }) :=
    bind_ok.mpr ⟨block, _, Action.between_ok.mpr ⟨left, listed, rfl⟩, pure_ok.mpr ⟨rfl, rfl⟩⟩
  have looped : Action.inLoop (do Action.declare name (.loopItem header.2); inBody (listCode context body)) ranged = _ :=
    Action.between_ok.mpr ⟨_, bind_ok.mpr ⟨(), _, entered, blocked⟩, rfl⟩
  simp only [code, bind_ok, pure_ok, lift_ok, Action.attempt_ok]
  exact ⟨_, _, header, ranged, ranges, _, _, looped, word, _, ⟨spelled, rfl⟩, _, _, ⟨rfl, rfl⟩, rfl, rfl⟩

end Statement

theorem innermost_behind {α : Type} {blocks : List (List (String × α))} {name root : String} {value : α}
    (apart : name ≠ root) : innermost? ([] :: [(name, value)] :: blocks) root = innermost? blocks root := by
  have other : (root == name) = false := beq_eq_false_iff_ne.mpr apart.symm
  simp [innermost?, List.findSome?_cons, List.lookup_cons, other]

theorem Instances.resolve_popping {instances : Instances} {name root : String} {held : Instance} (apart : name ≠ root)
    (there : instances.find? root = some held) :
    (some held, .change root) ∈ instances.resolve (Statement.itemSteps name (Statement.popping root)) := by
  have behind : ((instances.openBlock.declare name (.loopItem true)).openBlock).find? root = some held :=
    (innermost_behind apart).trans there
  have steps : ∃ rest, Statement.itemSteps name (Statement.popping root) =
      .openLoop :: .declare name (.loopItem true) :: .openBlock :: .use (.change root) :: rest := ⟨_, rfl⟩
  obtain ⟨rest, same⟩ := steps
  rw [same]
  exact behind ▸ List.mem_cons_self

/-- A loop protects the collection that it goes through from moves only. Wherever a body is accepted, it does
not give away the variable at the root of the collection, and changes it only if the variable may be changed.
If it may be, and still has its value behind the range, then a body that takes its elements away is accepted. -/
theorem iterated_uses (signatures : Signatures) :
    (∀ definition inner start, Function.Reaches signatures definition inner start → start.scope.Bounded) ∧
    ∀ (hasResult : Bool) (before ranged : Work) (name root : String) (collection : Expr) (header : String × Bool),
      before.scope.Bounded → collection.root? = some root →
      Statement.rangeCode ⟨signatures, hasResult⟩ (.each collection) before = (.ok header, ranged) →
      ∃ binding held, ranged.scope.find? root = some binding ∧ ranged.scope.instances.find? root = some held ∧
        (∀ body written after,
          (Statement.forLoop name (.each collection) body).code ⟨signatures, hasResult⟩ before = (.ok written, after) →
          ∀ entry ∈ ranged.scope.instances.resolve (Statement.itemSteps name body), entry.1 = some held →
            binding.moved = false ∧ entry.2.isMove = false ∧ (entry.2.mutates = true → binding.isMutable = true)) ∧
        (binding.moved = false → binding.isMutable = true → name ≠ root → (∃ word, Name.code name = .ok word) →
          (∃ written after, (Statement.forLoop name (.each collection) (Statement.popping root)).code
            ⟨signatures, hasResult⟩ before = (.ok written, after)) ∧
          (some held, .change root) ∈
            ranged.scope.instances.resolve (Statement.itemSteps name (Statement.popping root))) := by
  refine ⟨fun _ _ _ reaches => reaches.bounded, ?_⟩
  intro hasResult before ranged name root collection header bounded rooted ranges
  obtain ⟨binding, found⟩ := Statement.ranged_root rooted ranges
  obtain ⟨held, there, _⟩ := ranged.scope.instances_agree.matched.counterpart found
  refine ⟨binding, held, found, there, ?_, ?_⟩
  · intro body written after ran
    obtain ⟨names, closed⟩ := Statement.bodySteps_closed body
    have round := Statement.round_closed (.declare name (.loopItem true) .nil) closed
    have entered := (Statement.rangeCode_leaves _ _).toExtends.bounded ranges bounded
    exact Scope.rounds_spare entered round (Statement.rounds_run ranges ran) found there
  · intro whole mutable apart ⟨word, spelled⟩
    obtain ⟨_, rootSpelled⟩ := Statement.ranged_spelled rooted ranges
    have opened : (Statement.itemScope ranged.scope name).openBlock.find? root = some binding :=
      (innermost_behind apart).trans found
    obtain ⟨block, listed⟩ := @Statement.popping_written ⟨signatures, hasResult⟩ ⟨_, ranged.events⟩ _ _ _ opened whole
      mutable rootSpelled
    exact ⟨Statement.forLoop_written spelled ranges listed, Instances.resolve_popping apart there⟩

section Samples

/-- Nothing but one variable, which may be changed or not. -/
private def collecting (mutable : Bool) : Work :=
  ⟨⟨[("v", ⟨.declared mutable, false, 0⟩)], [], 0⟩, []⟩

private def nothing : BodyContext :=
  ⟨⟨[]⟩, false⟩

private theorem collecting_bounded (mutable : Bool) : (collecting mutable).scope.Bounded := by
  intro frame member entry inside
  cases List.mem_singleton.mp member
  cases List.mem_singleton.mp inside
  exact Nat.le_refl 0

theorem constant_only_read :
    (∃ written after, (Statement.forLoop "item" (.each (.identifier "v")) [.print [.identifier "v"]]).code nothing
      (collecting false) = (.ok written, after)) ∧
    ∀ entry ∈ (collecting false).scope.instances.resolve (Statement.itemSteps "item" [.print [.identifier "v"]]),
      entry.1 = (collecting false).scope.instances.find? "v" → entry.2.isMove = false ∧ entry.2.mutates = false := by
  have ranges : Statement.rangeCode nothing (.each (.identifier "v")) (collecting false) =
      (.ok ("sn_v.iter()", true), collecting false) := by cbv
  have ran : (Statement.forLoop "item" (.each (.identifier "v")) [.print [.identifier "v"]]).code nothing
      (collecting false) = (.ok ⟨.forLoop, _, false⟩, _) := rfl
  obtain ⟨binding, held, found, there, spared, _⟩ := (iterated_uses ⟨[]⟩).2 false _ _ "item" "v" _ _
    (collecting_bounded false) rfl ranges
  refine ⟨⟨_, _, ran⟩, fun entry member same => ?_⟩
  obtain ⟨_, kept, permitted⟩ := spared _ _ _ ran entry member (same.trans there)
  refine ⟨kept, Bool.eq_false_iff.mpr fun mutates => ?_⟩
  cases found
  cases permitted mutates

/-- The loop goes through the variable's own elements, and its body adds to them. -/
theorem appended_while_iterated :
    (∃ after, (Statement.forLoop "item" (.each (.identifier "v"))
        [.run (.method (.identifier "v") .append true [.literal ⟨.int, "2"⟩])]).code nothing (collecting true) =
      (.ok ⟨.forLoop, "for sn_item in sn_v.iter() \x7b\n    sn_v.append(2);\n\x7d\n", false⟩, after)) ∧
    ∃ held, (collecting true).scope.instances.find? "v" = some held ∧
      (some held, .change "v") ∈ (collecting true).scope.instances.resolve (Statement.itemSteps "item"
        [.run (.method (.identifier "v") .append true [.literal ⟨.int, "2"⟩])]) := by
  refine ⟨⟨collecting true, by cbv⟩, ⟨0, .declared true⟩, rfl, ?_⟩
  exact List.mem_of_getElem? (i := 0) rfl

end Samples

end Lowering
