import Mathlib.Data.List.Forall2
import Lowering.Proofs.ActionRuns
import Lowering.Statement.OfTree

/-! Reports only ever grow. What a reader of statements answers does not depend on what was
reported before it, and it adds the same reports after them. So its parts may be judged by what
each of them answers by itself. -/

namespace Lowering

namespace Traced

/-- The computation has one outcome, which it adds to whatever was reported before. -/
def Steady (computation : Traced α) : Prop :=
  ∃ answer notes, ∀ events, computation events = (answer, events ++ notes)

namespace Steady

theorem lift (result : Except Error α) : Steady (liftM result) :=
  ⟨result, [], fun events => Prod.ext rfl (List.append_nil events).symm⟩

theorem pure (value : α) : Steady (Pure.pure value) :=
  lift (.ok value)

theorem throw (error : Error) : Steady (throw error : Traced α) :=
  lift (.error error)

theorem note (event : Event) : Steady (Traced.note event) :=
  ⟨.ok (), [event], fun _ => rfl⟩

theorem bind {first : Traced α} {next : α → Traced β} (steady : Steady first)
    (continues : ∀ value, Steady (next value)) : Steady (first >>= next) := by
  obtain ⟨answer, notes, begun⟩ := steady
  have unfolds events :
      (first >>= next) events = ExceptT.bindCont next (first events).1 (first events).2 := rfl
  cases answer with
  | error error =>
    refine ⟨.error error, notes, fun events => ?_⟩
    rw [unfolds, begun]
    rfl
  | ok value =>
    obtain ⟨answer, later, ended⟩ := continues value
    refine ⟨answer, notes ++ later, fun events => ?_⟩
    rw [unfolds, begun, ← List.append_assoc]
    exact ended _

theorem refuse {condition : Prop} [Decidable condition] (error : Error) {next : PUnit → Traced α}
    (steady : ∀ nothing, Steady (next nothing)) :
    Steady (if condition then (MonadExcept.throw error : Traced PUnit) >>= next else next ⟨⟩) := by
  split
  · exact .bind (.throw _) steady
  · exact steady ⟨⟩

theorem mapM {f : α → Traced β} (items : List α) (steady : ∀ item, Steady (f item)) :
    Steady (items.mapM f) := by
  induction items with
  | nil => exact .pure []
  | cons item items ih =>
    rw [List.mapM_cons]
    exact (steady item).bind fun _ => ih.bind fun _ => .pure _

theorem foldlM {f : β → α → Traced β} (items : List α) (steady : ∀ so_far item, Steady (f so_far item))
    (start : β) : Steady (items.foldlM f start) := by
  induction items generalizing start with
  | nil => exact .pure start
  | cons item items ih =>
    rw [List.foldlM_cons]
    exact (steady start item).bind ih

theorem result_eq {computation : Traced α} (steady : Steady computation) (events : List Event) :
    (computation events).1 = computation.result := by
  obtain ⟨answer, notes, ran⟩ := steady
  have alone : computation.result = (computation []).1 := rfl
  rw [alone, ran, ran]

end Steady

section Results

variable {value : β} {next : α → Traced β}

theorem result_ok {computation : Traced α} {value : α} :
    computation.result = .ok value ↔ ∃ events, computation [] = (.ok value, events) := by
  constructor
  · intro answered
    exact ⟨_, Prod.ext answered rfl⟩
  · rintro ⟨events, ran⟩
    exact congrArg Prod.fst ran

theorem lift_bind_ok {result : Except Error α} :
    ((liftM result : Traced α) >>= next).result = .ok value ↔
      ∃ middle, result = .ok middle ∧ (next middle).result = .ok value := by
  simp only [result_ok, bind_ok, lift_ok]
  constructor
  · rintro ⟨events, middle, _, ⟨same, rfl⟩, ran⟩
    exact ⟨middle, same, events, ran⟩
  · rintro ⟨middle, same, events, ran⟩
    exact ⟨events, middle, _, ⟨same, rfl⟩, ran⟩

/-- Steady computations may be looked at one by one. -/
theorem bind_result_ok {first : Traced α} (steady : ∀ middle, Steady (next middle)) :
    (first >>= next).result = .ok value ↔ ∃ middle, first.result = .ok middle ∧ (next middle).result = .ok value := by
  constructor
  · intro answered
    obtain ⟨events, ran⟩ := result_ok.mp answered
    obtain ⟨middle, work, begun, ended⟩ := bind_ok.mp ran
    refine ⟨middle, congrArg Prod.fst begun, ?_⟩
    rw [← (steady middle).result_eq work]
    exact congrArg Prod.fst ended
  · rintro ⟨middle, begun, ended⟩
    obtain ⟨work, ran⟩ := result_ok.mp begun
    rw [← (steady middle).result_eq work] at ended
    exact result_ok.mpr ⟨_, bind_ok.mpr ⟨middle, work, ran, Prod.ext ended rfl⟩⟩

theorem result_lift (result : Except Error α) : (liftM result : Traced α).result = result := rfl

theorem pure_result_ok {result value : α} : (pure result : Traced α).result = .ok value ↔ result = value := by
  change Except.ok result = .ok value ↔ _
  simp

theorem refuse_ok {condition : Prop} [Decidable condition] {error : Error} {next : PUnit → Traced α} {value : α} :
    (if condition then (throw error : Traced PUnit) >>= next else next ⟨⟩).result = .ok value ↔
      ¬ condition ∧ (next ⟨⟩).result = .ok value := by
  by_cases refused : condition
  · rw [if_pos refused]
    constructor
    · intro thrown
      cases thrown
    · intro odd
      exact absurd refused odd.1
  · simp [refused]

theorem mapM_result_ok {f : α → Traced β} {items : List α} {values : List β} (steady : ∀ item, Steady (f item)) :
    (items.mapM f).result = .ok values ↔ List.Forall₂ (fun item value => (f item).result = .ok value) items values := by
  induction items generalizing values with
  | nil =>
    rw [List.mapM_nil, pure_result_ok, List.forall₂_nil_left_iff]
    exact eq_comm
  | cons item items ih =>
    have rest : Steady (items.mapM f) := .mapM items steady
    rw [List.mapM_cons, bind_result_ok fun _ => rest.bind fun _ => .pure _]
    simp only [bind_result_ok fun _ => Steady.pure _, pure_result_ok, ih, List.forall₂_cons_left_iff]
    constructor
    · rintro ⟨value, first, values, later, rfl⟩
      exact ⟨value, values, first, later, rfl⟩
    · rintro ⟨value, values, first, later, rfl⟩
      exact ⟨value, first, values, later, rfl⟩

end Results
end Traced

open Traced (Steady)

variable {tree : Tree}

theorem Clause.readAll_steady (vocabulary : Vocabulary) {readBody : Node tree → Traced (List Statement)}
    (steady : ∀ node, Steady (readBody node)) :
    (clauses : List (Clause tree)) → Steady (readAll vocabulary readBody clauses)
  | [] => .pure _
  | .expression _ :: rest =>
    .bind (.lift _) fun _ => .bind (readAll_steady vocabulary steady rest) fun _ => .pure _
  | .body _ :: rest =>
    .bind (steady _) fun _ => .bind (readAll_steady vocabulary steady rest) fun _ => .pure _
  | .stray _ :: _ => .throw _

namespace Statement

section Bodies

variable {readBody : Node tree → Traced (List Statement)} (steady : ∀ node, Steady (readBody node))
include steady

theorem bodyOfFields_steady (fields : Fields tree) : Steady (bodyOfFields readBody fields) := by
  unfold bodyOfFields
  split
  · exact steady _
  · exact .pure _

theorem whileLoopOfNode_steady (node : Node tree) : Steady (whileLoopOfNode readBody node) := by
  refine .bind (.lift _) fun fields => .bind (.lift _) fun _ => .bind (.lift _) fun _ => ?_
  exact .bind (.lift _) fun _ => .bind (bodyOfFields_steady steady fields) fun _ => .pure _

theorem forLoopOfNode_steady (node : Node tree) : Steady (forLoopOfNode readBody node) := by
  refine .bind (.lift _) fun children => ?_
  split
  · exact .throw _
  · refine .bind (.lift _) fun _ => .bind (.lift _) fun _ => ?_
    refine .bind (Clause.readAll_steady _ steady _) fun _ => ?_
    exact .bind (.lift _) fun _ => .pure _

theorem ifBlockOfNode_steady (node : Node tree) : Steady (ifBlockOfNode readBody node) := by
  refine .bind (.lift _) fun children => .bind (.foldlM _ (fun branches branch => ?_) _) fun _ => ?_
  · refine .bind (.lift _) fun fields => .bind (.lift _) fun _ => ?_
    exact .bind (bodyOfFields_steady steady fields) fun _ => .lift _
  · exact .refuse _ fun _ => .pure _

theorem addArm_steady (arms : Arms) (arm : Node tree) : Steady (arms.add readBody arm) := by
  refine .refuse _ fun _ => .refuse _ fun _ => .bind (.lift _) fun _ => ?_
  refine .bind (Clause.readAll_steady _ steady _) fun (values, body) => ?_
  dsimp only
  split <;> exact .pure _

theorem matchBlockOfNode_steady (node : Node tree) : Steady (matchBlockOfNode readBody node) := by
  refine .bind (.lift _) fun children => ?_
  split
  · exact .throw _
  · refine .bind (.lift _) fun _ => .bind (.lift _) fun _ => ?_
    refine .bind (.foldlM _ (fun arms arm => addArm_steady steady arms arm) _) fun _ => ?_
    exact .refuse _ fun _ => .pure _

end Bodies

/-- Readers of bodies may be taken to be steady as long as the bodies get smaller. -/
private theorem readers_steady (size : Nat) : ∀ tree : Tree, sizeOf tree < size →
    Steady (ofTree tree) ∧ Steady (listOfTree tree) := by
  induction size with
  | zero => exact fun _ small => absurd small (Nat.not_lt_zero _)
  | succ size ih =>
    intro tree small
    have bodies (node : Node tree) : Steady (listOfTree node.content) :=
      (ih node.content (by have := node.smaller; omega)).2
    have contents (node : Node tree) : Steady (ofTree node.content) :=
      (ih node.content (by have := node.smaller; omega)).1
    constructor
    · rw [ofTree]
      refine .bind (.lift _) fun node => .bind (.lift _) fun kind => .bind (.note _) fun _ => ?_
      cases kind with
      | whileLoop => exact whileLoopOfNode_steady bodies node
      | forLoop => exact forLoopOfNode_steady bodies node
      | ifBlock => exact ifBlockOfNode_steady bodies node
      | matchBlock => exact matchBlockOfNode_steady bodies node
      | _ => exact .lift _
    · rw [listOfTree]
      refine .bind (.lift _) fun nodes => .mapM _ fun node => ?_
      exact .bind (.lift _) fun _ => contents node

theorem ofTree_steady (tree : Tree) : Steady (ofTree tree) :=
  (readers_steady _ tree (Nat.lt_succ_self _)).1

/-- Reading statements gives the same answer whatever was reported before. -/
theorem listOfTree_steady (tree : Tree) : Steady (listOfTree tree) :=
  (readers_steady _ tree (Nat.lt_succ_self _)).2

end Statement
end Lowering
