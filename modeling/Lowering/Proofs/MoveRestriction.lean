import Lowering.Proofs.ScopeFreedom

/-! What has been moved can only stand in the way. Code that is written out in some scope is written out
in the same words in every scope with the same variables that has lost no more of them, and wherever it
is written out among these variables it reads the same. -/

namespace Lowering

theorem Binding.Freer.alike {one other : Binding} (freer : Freer one other) : Alike one other :=
  ⟨freer.origin, freer.depth⟩

theorem Scope.Freer.alike {one other : Scope} (freer : Freer one other) : Alike one other :=
  ⟨freer.loopDepth, freer.frames.imp fun _ _ bindings => bindings.alike⟩

namespace Action.Repeats

variable {action : Action α} {steps : List Step} {one other after after' : Work} {value value' : α}

/-- What goes through in a scope goes through in every scope that has lost no more. -/
theorem freed (repeats : Repeats action action steps) (freer : other.scope.Freer one.scope)
    (ran : action one = (.ok value, after)) :
    ∃ left, action other = (.ok value, left) ∧ left.scope.Freer after.scope := by
  obtain ⟨taken, answers⟩ := repeats _ _ _ ran
  obtain ⟨last, followed, closer⟩ := freer.run taken
  obtain ⟨left, ran', rfl⟩ := answers other last freer.alike.symm followed
  exact ⟨left, ran', closer⟩

theorem agrees (repeats : Repeats action action steps) (alike : one.scope.Alike other.scope)
    (ran : action one = (.ok value, after)) (ran' : action other = (.ok value', after')) : value = value' := by
  obtain ⟨_, answers⟩ := repeats _ _ _ ran
  obtain ⟨taken', _⟩ := repeats _ _ _ ran'
  obtain ⟨_, again, _⟩ := answers other _ alike taken'
  exact (Except.ok.inj (congrArg Prod.fst (ran'.symm.trans again))).symm

end Action.Repeats

/-- The actions that write out a statement, an expression or what stands within them. -/
inductive Writing (context : BodyContext) : {α : Type} → Action α → Prop where
  | statement (statement : Statement) : Writing context (statement.code context)
  | list (statements : List Statement) : Writing context (Statement.listCode context statements)
  | body (statements : List Statement) : Writing context (Statement.bodyCode context statements)
  | expression (form : Form) (expr : Expr) : Writing context (expr.code context.signatures form)
  | lent (expr : Expr) : Writing context (expr.lentCode context.signatures)
  | owned (expr : Expr) : Writing context (expr.ownedCode context.signatures)
  | items (expr : Expr) : Writing context (expr.itemsCode context.signatures)
  | argument (function : String) (parameter : String × Accessor) (accessor : Accessor) (expr : Expr) :
    Writing context (expr.pass function parameter accessor fun form => expr.code context.signatures form)
  | operand (operand : Method.Operand) (expr : Expr) :
    Writing context (Method.argument operand expr fun form => expr.code context.signatures form)

theorem Writing.repeats {context : BodyContext} {action : Action α} (writing : Writing context action) :
    ∃ steps, Action.Repeats action action steps := by
  have carried : context.signatures.CarriedBy context.signatures := .refl _
  cases writing with
  | statement statement => exact ⟨_, Statement.code_repeats (.refl context) statement⟩
  | list statements => exact ⟨_, Statement.listCode_repeats (.refl context) statements⟩
  | body statements => exact ⟨_, Statement.inBody_repeats (Statement.listCode_repeats (.refl context) statements)⟩
  | expression form expr => exact ⟨_, expr.code_repeats carried form⟩
  | lent expr => exact ⟨_, expr.lentCode_repeats carried⟩
  | owned expr => exact ⟨_, expr.ownedCode_repeats carried⟩
  | items expr => exact ⟨_, expr.itemsCode_repeats carried⟩
  | argument function parameter accessor expr =>
    exact ⟨_, Expr.pass_repeats rfl fun form => expr.code_repeats carried form⟩
  | operand operand expr => exact ⟨_, Expr.argument_repeats fun form => expr.code_repeats carried form⟩

/-- Moves only restrict. Take two scopes with the same variables in the same blocks, declared alike and
within as many loops, where only such variables are moved in the one as are moved in the other. What is
written out in the latter is written out in the former, with the same text, kind and flag of returning,
and the scopes that are left are again related in this way. And in scopes with the same variables,
whatever is moved in them, the code reads the same wherever it is written out. -/
theorem moves_only_restrict {context : BodyContext} {action : Action α} (writing : Writing context action)
    (one other : Work) :
    (other.scope.Freer one.scope → ∀ value after, action one = (.ok value, after) →
      ∃ left, action other = (.ok value, left) ∧ left.scope.Freer after.scope) ∧
    (one.scope.Alike other.scope → ∀ value value' after after', action one = (.ok value, after) →
      action other = (.ok value', after') → value = value') := by
  obtain ⟨steps, repeats⟩ := writing.repeats
  constructor
  · intro freer value after ran
    exact repeats.freed freer ran
  · intro alike value value' after after' ran ran'
    exact repeats.agrees alike ran ran'

section Sample

/-- A function that takes its argument over. -/
private def keeping : BodyContext :=
  ⟨⟨[("keep", ⟨[("items", .move)], false⟩)]⟩, false⟩

/-- Two variables around a block, one of them moved or not. -/
private def pairOf (moved : Bool) : Work :=
  ⟨⟨[], [[("v", ⟨.declared true, false, 0⟩), ("w", ⟨.parameter .copy, moved, 0⟩)]], 0⟩, []⟩

/-- The other variable is given away in one branch. -/
private def givingAway : Statement :=
  .ifBlock [(.literal ⟨.bool, "true"⟩, [.run (.call "keep" [(.move, .identifier "v")])])] none

theorem branch_restricted_only : ∃ written after left, givingAway.code keeping (pairOf true) = (.ok written, after) ∧
    givingAway.code keeping (pairOf false) = (.ok written, left) ∧ left.scope.Freer after.scope := by
  have freer : (pairOf false).scope.Freer (pairOf true).scope :=
    ⟨rfl, .cons .nil (.cons (.cons ⟨rfl, .refl _⟩ (.cons ⟨rfl, rfl, rfl, nofun⟩ .nil)) .nil)⟩
  have ran : givingAway.code keeping (pairOf true) =
      (.ok ⟨.ifBlock, "if true \x7b\n    sn_keep(sn_v);\n\x7d\n", false⟩, _) := rfl
  obtain ⟨left, ran', related⟩ := (moves_only_restrict (.statement givingAway) (pairOf true) (pairOf false)).1 freer _ _ ran
  exact ⟨_, _, left, ran, ran', related⟩

end Sample

end Lowering
