import Mathlib.Data.List.Forall2
import Lowering.Scope.Action

/-! How actions run. A sequence of actions succeeds exactly when each of them does, and a
successful action leaves behind what its parts left behind in turn. -/

namespace Lowering

@[simp] theorem except_pure (value : α) : (pure value : Except Error α) = .ok value := rfl

theorem except_bind_ok {first : Except ε α} {next : α → Except ε β} {value : β} :
    first >>= next = .ok value ↔ ∃ middle, first = .ok middle ∧ next middle = .ok value := by
  cases first with
  | error error => simp [bind, Except.bind]
  | ok middle => simp [bind, Except.bind]

theorem except_bind_error {first : Except ε α} {next : α → Except ε β} {error : ε} :
    first >>= next = .error error ↔
      first = .error error ∨ ∃ middle, first = .ok middle ∧ next middle = .error error := by
  cases first with
  | error reported => simp [bind, Except.bind]
  | ok middle => simp [bind, Except.bind]

theorem except_map_ok {result : Except Error α} {f : α → β} {value : β} :
    f <$> result = .ok value ↔ ∃ middle, result = .ok middle ∧ f middle = value := by
  cases result with
  | error error => simp [Functor.map, Except.map]
  | ok middle => simp [Functor.map, Except.map]

theorem except_isOk {result : Except ε α} : result.isOk = true ↔ ∃ value, result = .ok value := by
  cases result with
  | error error => simp [Except.isOk, Except.toBool]
  | ok value => simp [Except.isOk, Except.toBool]

section Runs

variable {σ : Type} {before after : σ}

theorem bind_ok {action : ExceptT Error (StateM σ) α} {next : α → ExceptT Error (StateM σ) β} {value : β} :
    (action >>= next) before = (.ok value, after) ↔
      ∃ middle work, action before = (.ok middle, work) ∧ next middle work = (.ok value, after) := by
  change ExceptT.bindCont next (action before).1 (action before).2 = (.ok value, after) ↔ _
  constructor
  · intro ran
    cases answered : (action before).1 with
    | ok middle =>
      rw [answered] at ran
      exact ⟨middle, _, Prod.ext answered rfl, ran⟩
    | error error =>
      rw [answered] at ran
      cases ran
  · rintro ⟨middle, work, first, rest⟩
    rw [first]
    exact rest

theorem pure_ok {result value : α} :
    (pure result : ExceptT Error (StateM σ) α) before = (.ok value, after) ↔ result = value ∧ before = after := by
  change (Except.ok result, before) = (.ok value, after) ↔ _
  simp

theorem throw_ok {error : Error} {value : α} :
    ¬ (throw error : ExceptT Error (StateM σ) α) before = (.ok value, after) := by
  change ¬ (Except.error error, before) = (.ok value, after)
  simp

theorem lift_ok {result : Except Error α} {value : α} :
    (liftM result : ExceptT Error (StateM σ) α) before = (.ok value, after) ↔ result = .ok value ∧ before = after := by
  change (result, before) = (.ok value, after) ↔ _
  simp

theorem map_ok {action : ExceptT Error (StateM σ) α} {f : α → β} {value : β} :
    (f <$> action) before = (.ok value, after) ↔
      ∃ middle, action before = (.ok middle, after) ∧ f middle = value := by
  rw [map_eq_pure_bind, bind_ok]
  simp only [pure_ok]
  constructor
  · rintro ⟨middle, work, ran, same, rfl⟩
    exact ⟨middle, ran, same⟩
  · rintro ⟨middle, ran, same⟩
    exact ⟨middle, after, ran, same, rfl⟩

end Runs

namespace Action

variable {before after : Work}

theorem inspect_ok {question : Scope → Except Error α} {value : α} :
    inspect question before = (.ok value, after) ↔
      question before.scope = .ok value ∧ before = after := by
  change (liftM (question before.scope) : Action α) before = (.ok value, after) ↔ _
  exact lift_ok

theorem change_ok {step : Scope → Except Error Scope} :
    change step before = (.ok (), after) ↔
      ∃ scope, step before.scope = .ok scope ∧ { before with scope } = after := by
  change ((liftM (step before.scope) : Action Scope) >>= fun scope =>
    (modify fun work => { work with scope } : Action Unit)) before = _ ↔ _
  rw [bind_ok]
  simp only [lift_ok]
  constructor
  · rintro ⟨scope, work, ⟨stepped, rfl⟩, set⟩
    exact ⟨scope, stepped, congrArg Prod.snd set⟩
  · rintro ⟨scope, stepped, rfl⟩
    exact ⟨scope, before, ⟨stepped, rfl⟩, rfl⟩

theorem between_ok {first last : Scope → Scope} {action : Action α} {value : α} :
    between first last action before = (.ok value, after) ↔
      ∃ work, action { before with scope := first before.scope } = (.ok value, work) ∧
        { work with scope := last work.scope } = after := by
  constructor
  · intro ran
    obtain ⟨answered, left⟩ := Prod.mk.injEq .. |>.mp ran
    exact ⟨_, Prod.ext answered rfl, left⟩
  · rintro ⟨work, ran, rfl⟩
    simp only [between, ran]

theorem inNewScope_ok {action : Action α} {events reported : List Event} {value : α} :
    inNewScope action events = (.ok value, reported) ↔
      ∃ work, action ⟨.initial, events⟩ = (.ok value, work) ∧ work.events = reported := by
  constructor
  · intro ran
    obtain ⟨answered, left⟩ := Prod.mk.injEq .. |>.mp ran
    exact ⟨_, Prod.ext answered rfl, left⟩
  · rintro ⟨work, ran, rfl⟩
    simp only [inNewScope, ran]

theorem attempt_ok {action : Action α} {answer : Except Error α} :
    attempt action before = (.ok answer, after) ↔ action before = (answer, after) := by
  change ((Except.ok (action before).1 : Except Error (Except Error α)), (action before).2) = _ ↔ _
  rw [Prod.mk.injEq, Except.ok.injEq, Prod.ext_iff]

/-- The action succeeds with this value somewhere. -/
def Answers (action : Action α) (value : α) : Prop :=
  ∃ before after, action before = (.ok value, after)

namespace Answers

theorem of_pure {result value : α} (answers : Answers (pure result) value) : result = value := by
  obtain ⟨_, _, ran⟩ := answers
  exact (pure_ok.mp ran).1

theorem of_lift {result : Except Error α} {value : α} (answers : Answers (liftM result) value) :
    result = .ok value := by
  obtain ⟨_, _, ran⟩ := answers
  exact (lift_ok.mp ran).1

theorem of_bind {action : Action α} {next : α → Action β} {value : β}
    (answers : Answers (action >>= next) value) :
    ∃ middle, Answers action middle ∧ Answers (next middle) value := by
  obtain ⟨_, _, ran⟩ := answers
  obtain ⟨middle, work, first, rest⟩ := bind_ok.mp ran
  exact ⟨middle, ⟨_, _, first⟩, ⟨_, _, rest⟩⟩

theorem of_map {action : Action α} {f : α → β} {value : β} (answers : Answers (f <$> action) value) :
    ∃ middle, Answers action middle ∧ f middle = value := by
  obtain ⟨_, _, ran⟩ := answers
  obtain ⟨middle, first, same⟩ := map_ok.mp ran
  exact ⟨middle, ⟨_, _, first⟩, same⟩

theorem of_between {opens closes : Scope → Scope} {action : Action α} {value : α}
    (answers : Answers (between opens closes action) value) : Answers action value := by
  obtain ⟨_, _, ran⟩ := answers
  obtain ⟨_, inner, _⟩ := between_ok.mp ran
  exact ⟨_, _, inner⟩

theorem of_attempt {action : Action α} {value : α} (answers : Answers (attempt action) (.ok value)) :
    Answers action value := by
  obtain ⟨_, _, ran⟩ := answers
  exact ⟨_, _, attempt_ok.mp ran⟩

theorem of_mapM_each {f : α → Action β} {items : List α} {values : List β} (answers : Answers (items.mapM f) values) :
    List.Forall₂ (fun item value => Answers (f item) value) items values := by
  induction items generalizing values with
  | nil =>
    cases answers.of_pure
    exact .nil
  | cons item items ih =>
    rw [List.mapM_cons] at answers
    obtain ⟨value, first, answers⟩ := answers.of_bind
    obtain ⟨later, rest, same⟩ := answers.of_bind
    cases same.of_pure
    exact .cons first (ih rest)

theorem of_mapM {f : α → Action β} {items : List α} {values : List β} (answers : Answers (items.mapM f) values) :
    ∀ item ∈ items, ∃ value, Answers (f item) value := by
  have each := answers.of_mapM_each
  clear answers
  induction each with
  | nil => nofun
  | cons first _ ih => exact List.forall_mem_cons.mpr ⟨⟨_, first⟩, ih⟩

end Answers

end Action
end Lowering
