import Mathlib.Order.Defs.Unbundled
import Lowering.Proofs.ScopeGrowth

/-! What an action leaves of a scope, whether it succeeds or fails. A relation between the scope
before and the scope behind that composes holds of an action as soon as it holds of its parts,
since a part that fails cuts off only what would have followed. -/

namespace Lowering

namespace Scope

/-- Some variables are new in the innermost block, and the rest is kept. -/
def Extends (before after : Scope) : Prop :=
  ∃ names, before.Grows names after

instance : IsPreorder Scope Keeps where
  refl := .refl
  trans _ _ _ first last := first.trans last

instance : IsPreorder Scope Extends where
  refl scope := ⟨[], .of_keeps (.refl scope)⟩
  trans := fun _ _ _ ⟨_, first⟩ ⟨_, last⟩ => ⟨_, first.trans last⟩

theorem pass_keeps {name : String} {accessor : Accessor} {before after : Scope}
    (passed : before.pass name accessor = .ok after) : Keeps before after := by
  have checked : before.check (.pass name accessor) = .ok after := passed
  exact check_keeps checked

end Scope

namespace Action

theorem bind_of_ok {action : Action α} {next : α → Action β} {before after : Work} {value : α}
    (ran : action before = (.ok value, after)) : (action >>= next) before = next value after := by
  change ExceptT.bindCont next (action before).1 (action before).2 = _
  rw [ran]
  rfl

theorem bind_of_error {action : Action α} {next : α → Action β} {before after : Work} {error : Error}
    (ran : action before = (.error error, after)) : (action >>= next) before = (.error error, after) := by
  change ExceptT.bindCont next (action before).1 (action before).2 = _
  rw [ran]
  rfl

theorem change_of_ok {step : Scope → Except Error Scope} {before : Work} {scope : Scope}
    (stepped : step before.scope = .ok scope) : change step before = (.ok (), { before with scope }) :=
  change_ok.mpr ⟨scope, stepped, rfl⟩

theorem change_of_error {step : Scope → Except Error Scope} {before : Work} {error : Error}
    (refused : step before.scope = .error error) : change step before = (.error error, before) := by
  change ((liftM (step before.scope) : Action Scope) >>= fun scope =>
    (modify fun work => { work with scope } : Action Unit)) before = _
  rw [refused]
  rfl

/-- However the action ends, the scope that it leaves is related to the one that it found. -/
def Leaves (relation : Scope → Scope → Prop) (action : Action α) : Prop :=
  ∀ before : Work, relation before.scope (action before).2.scope

namespace Leaves

variable {relation : Scope → Scope → Prop} {action : Action α}

theorem imp {weaker : Scope → Scope → Prop} (leaves : Leaves relation action)
    (implies : ∀ before after, relation before after → weaker before after) : Leaves weaker action :=
  fun before => implies _ _ (leaves before)

/-- What an action does between two changes of the scope may be more than what is left of it
when the second change is made. -/
theorem between {first last : Scope → Scope} {inner : Scope → Scope → Prop} (leaves : Leaves inner action)
    (closes : ∀ before after, inner (first before) after → relation before (last after)) :
    Leaves relation (Action.between first last action) :=
  fun before => closes _ _ (leaves { before with scope := first before.scope })

theorem attempt (leaves : Leaves relation action) : Leaves relation (Action.attempt action) :=
  leaves

theorem change {step : Scope → Except Error Scope} (steps : ∀ before after, step before = .ok after → relation before after)
    (refl : ∀ scope, relation scope scope) : Leaves relation (Action.change step) := by
  intro before
  cases stepped : step before.scope with
  | ok after =>
    rw [change_of_ok stepped]
    exact steps _ _ stepped
  | error error =>
    rw [change_of_error stepped]
    exact refl before.scope

variable [IsPreorder Scope relation]

private theorem idle (same : ∀ before, (action before).2.scope = before.scope) : Leaves relation action := by
  intro before
  rw [same before]
  exact refl_of relation before.scope

theorem pure (value : α) : Leaves relation (Pure.pure value) :=
  idle fun _ => rfl

theorem throw (error : Error) : Leaves relation (throw error : Action α) :=
  idle fun _ => rfl

theorem lift (result : Except Error α) : Leaves relation (liftM result : Action α) :=
  idle fun _ => rfl

theorem note (event : Event) : Leaves relation (Action.note event) :=
  idle fun _ => rfl

theorem inspect (question : Scope → Except Error α) : Leaves relation (Action.inspect question) :=
  idle fun _ => rfl

theorem bind {next : α → Action β} (begins : Leaves relation action)
    (continues : ∀ value, Leaves relation (next value)) : Leaves relation (action >>= next) := by
  intro before
  have begun := begins before
  cases ran : action before with
  | mk answer work =>
    rw [ran] at begun
    cases answer with
    | ok value =>
      rw [bind_of_ok ran]
      exact trans_of relation begun (continues value work)
    | error error =>
      rw [bind_of_error ran]
      exact begun

theorem map (f : α → β) (leaves : Leaves relation action) : Leaves relation (f <$> action) := by
  rw [map_eq_pure_bind]
  exact leaves.bind fun _ => .pure _

theorem mapM {f : α → Action β} {items : List α} (each : ∀ item, Leaves relation (f item)) :
    Leaves relation (items.mapM f) := by
  induction items with
  | nil => exact .pure []
  | cons item items ih =>
    rw [List.mapM_cons]
    exact (each item).bind fun _ => ih.bind fun _ => .pure _

/-- What follows and leaves the scope alone may be left out. -/
theorem scope_bind {next : α → Action β} (silent : ∀ value, Leaves Eq (next value)) (before : Work) :
    ((action >>= next) before).2.scope = (action before).2.scope := by
  cases ran : action before with
  | mk answer work =>
    cases answer with
    | ok value =>
      rw [bind_of_ok ran]
      exact (silent value work).symm
    | error error => rw [bind_of_error ran]

end Leaves
end Action
end Lowering
