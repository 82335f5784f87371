import Mathlib
import Lowering.Proofs.AcceptedBodies

/-! When code that goes on using a variable may lose it on the way. A place, a method call and an
assignment check the variable at their root first and then look at the parts that follow, among
which an argument may give the variable away. -/

namespace Lowering

namespace Expr

/-- The variable at the root of a place, or of the receiver of a method. -/
def accessRoot? : Expr → Option String
  | method receiver _ _ _ => receiver.root?
  | expr => expr.root?

/-- The ways in which an expression that is no argument is written out. -/
def writings (signatures : Signatures) (expr : Expr) : List (Action String) :=
  [expr.code signatures .value, expr.code signatures .place, expr.lentCode signatures,
    expr.ownedCode signatures]

theorem writings_perform {signatures : Signatures} {expr : Expr} {action : Action String}
    (one : action ∈ expr.writings signatures) : action.Performs expr.steps := by
  simp only [writings, List.mem_cons, List.not_mem_nil, or_false] at one
  rcases one with rfl | rfl | rfl | rfl
  · exact code_performs signatures .value expr
  · exact code_performs signatures .place expr
  · exact lentCode_performs signatures expr
  · exact ownedCode_performs signatures expr

theorem read_accessRoot {expr : Expr} {root : String} (rooted : expr.accessRoot? = some root) :
    .read root ∈ expr.uses := by
  have named {place : Expr} (rooted : place.root? = some root) : .read root ∈ place.uses := by
    obtain ⟨rest, same⟩ := uses_root rooted
    rw [same]
    exact List.mem_cons_self
  cases expr with
  | method receiver called marked arguments =>
    rw [uses]
    exact List.mem_append_right _ (List.mem_append_left _ (named rooted))
  | _ => exact named rooted

end Expr

/-- After a place or a method call the variable at its root still has its value exactly if no
argument within it gives the variable away. After an assignment the same is true of the target
alone, since the assigned value cannot give the variable away. -/
theorem root_kept_iff (context : BodyContext) (root : String) (before after : Work) :
    (∀ (expr : Expr) (text : String), expr.accessRoot? = some root →
      (∃ action ∈ expr.writings context.signatures, action before = (.ok text, after)) →
        (after.scope.Holds root ↔ .pass root .move ∉ expr.uses)) ∧
    ∀ (target : Expr) (operator : AssignOp) (value : Expr) (written : StatementCode),
      target.root? = some root →
      (Statement.set target operator value).code context before = (.ok written, after) →
        .pass root .move ∉ value.uses ∧ (after.scope.Holds root ↔ .pass root .move ∉ target.uses) := by
  constructor
  · rintro expr text rooted ⟨action, one, ran⟩
    have steps := Expr.writings_perform one _ _ _ ran
    have holds : before.scope.Holds root := Scope.holds_of_run steps (Expr.read_accessRoot rooted)
    exact Scope.holds_run_iff steps holds
  · intro target operator value written rooted ran
    have steps := Statement.code_performs context _ _ _ _ ran
    simp only [Statement.steps, Statement.uses, rooted, Option.toList_some, List.map_append] at steps
    obtain ⟨opened, first, steps⟩ := Scope.run_append.mp steps
    obtain ⟨valued, given, last⟩ := Scope.run_append.mp steps
    have there : before.scope.Holds root := Scope.holds_of_run first List.mem_cons_self
    have holds : opened.Holds root := (Scope.holds_run_iff first there).mpr (by simp)
    -- The target is written out after the value and reads the root once more.
    have read : .read root ∈ target.uses := by
      obtain ⟨rest, same⟩ := Expr.uses_root rooted
      rw [same]
      exact List.mem_cons_self
    have whole : valued.Holds root := Scope.holds_of_run last read
    exact ⟨(Scope.holds_run_iff given holds).mp whole, Scope.holds_run_iff last whole⟩

section Samples

/-- Nothing but one variable that may be changed. -/
private def owning : Work :=
  ⟨⟨[("v", ⟨.declared true, false, 0⟩)], [], 0⟩, []⟩

private def firstItem : Expr :=
  .index (.identifier "v") (.literal ⟨.int, "0"⟩)

/-- The position is what a function answers that has taken the collection over. -/
private def selfIndexed : Expr :=
  .index (.identifier "v") (.call "take" [(.move, .identifier "v")])

theorem plain_index_keeps_root :
    (∃ text after, firstItem.code .taking .value owning = (.ok text, after) ∧ after.scope.Holds "v") ∧
    ∃ written after,
      (Statement.set firstItem .assign (.literal ⟨.int, "1"⟩)).code ⟨.taking, false⟩ owning =
        (.ok written, after) ∧ after.scope.Holds "v" := by
  have looked : firstItem.code .taking .value owning = (.ok "sn_v[(0) as usize]", owning) := by cbv
  have changed : (Statement.set firstItem .assign (.literal ⟨.int, "1"⟩)).code ⟨.taking, false⟩ owning =
      (.ok ⟨.set, "sn_v[(0) as usize] = 1;\n", false⟩, owning) := by cbv
  obtain ⟨expressions, assignments⟩ := root_kept_iff ⟨.taking, false⟩ "v" owning owning
  constructor
  · exact ⟨_, _, looked, (expressions firstItem _ rfl ⟨_, List.mem_cons_self, looked⟩).mpr (by decide)⟩
  · exact ⟨_, _, changed, (assignments firstItem _ _ _ rfl changed).2.mpr (by decide)⟩

/-- The text indexes the variable with what is answered for it, though by then it is given away. -/
theorem self_index_loses_root : selfIndexed.accessRoot? = some "v" ∧ owning.scope.Holds "v" ∧
    ∃ after, selfIndexed.code .taking .place owning = (.ok "sn_v[(sn_take(sn_v)) as usize]", after) ∧
      ¬ after.scope.Holds "v" := by
  refine ⟨rfl, ⟨_, rfl, rfl⟩, (selfIndexed.code .taking .place owning).2, by cbv, ?_⟩
  rintro ⟨binding, found, whole⟩
  have gone : (selfIndexed.code .taking .place owning).2.scope.find? "v" =
      some ⟨.declared true, true, 0⟩ := by cbv
  cases gone.symm.trans found
  cases whole

end Samples

end Lowering
