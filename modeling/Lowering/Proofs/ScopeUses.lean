import Lowering.Proofs.ScopeSteps

/-! Uses of variables change nothing in a scope but the marks of moves. A list of uses that is
carried out therefore finds every variable as it stood before the first of them, and a variable
loses its value exactly when one of the uses gives it away. -/

namespace Lowering.Scope

variable {before after : Scope} {uses : List Use}

/-- The use succeeds in the scope: its variable is there, still has its value and allows the use. -/
def Admits (scope : Scope) (use : Use) : Prop :=
  ∃ binding, scope.find? use.name = some binding ∧ binding.moved = false ∧ binding.Allows scope.loopDepth use

@[simp] theorem loopDepth_used (scope : Scope) (use : Use) :
    (scope.used use).loopDepth = scope.loopDepth := by
  unfold used
  split
  · exact loopDepth_markMoved scope use.name
  · rfl

theorem find?_used (scope : Scope) (use : Use) (name : String) :
    (scope.used use).find? name = (scope.find? name).map fun binding =>
      { binding with moved := binding.moved || decide (use = .pass name .move) } := by
  cases moves : use.isMove with
  | false =>
    have other : use ≠ .pass name .move := by
      rintro rfl
      cases moves
    simp [used, moves, other]
  | true =>
    obtain ⟨given, rfl⟩ : ∃ given, use = .pass given .move := by
      unfold Use.isMove at moves
      split at moves
      next given => exact ⟨given, rfl⟩
      next => cases moves
    simp only [used, moves, if_true]
    change innermost? (markMoved scope given).frames name = _
    rw [frames_markMoved, innermost_markFrames]
    by_cases same : given = name
    · subst same
      simp [find?, innermost?]
    · simp [same, find?, innermost?]

theorem check_find? {use : Use} (checked : before.check use = .ok after) (name : String) :
    after.find? name = (before.find? name).map fun binding =>
      { binding with moved := binding.moved || decide (use = .pass name .move) } := by
  obtain ⟨_, _, _, _, rfl⟩ := check_ok.mp checked
  exact find?_used before use name

/-- After a list of uses every variable is what it was, moved if one of the uses moves it. -/
theorem run_find? (ran : before.run (uses.map .use) = .ok after) (name : String) :
    after.find? name = (before.find? name).map fun binding =>
      { binding with moved := binding.moved || decide (.pass name .move ∈ uses) } := by
  induction uses generalizing before with
  | nil =>
    cases run_nil.mp ran
    simp
  | cons use rest ih =>
    obtain ⟨middle, checked, later⟩ := run_cons.mp ran
    rw [ih later, check_find? checked, Option.map_map]
    congr 1
    funext binding
    simp [Bool.or_assoc, eq_comm]

/-- A variable that still has its value keeps it unless one of the uses moves it. -/
theorem holds_run_iff (ran : before.run (uses.map .use) = .ok after) {name : String}
    (holds : before.Holds name) : after.Holds name ↔ .pass name .move ∉ uses := by
  obtain ⟨binding, found, whole⟩ := holds
  simp [Holds, run_find? ran, found, whole]

/-- A use is admitted behind another one exactly if it is admitted before it and the variable is
not given away in between. -/
theorem admits_used (scope : Scope) (earlier later : Use) :
    (scope.used earlier).Admits later ↔ scope.Admits later ∧ earlier ≠ .pass later.name .move := by
  unfold Admits
  rw [find?_used, loopDepth_used]
  constructor
  · rintro ⟨binding, found, whole, allowed⟩
    obtain ⟨held, there, rfl⟩ := Option.map_eq_some_iff.mp found
    obtain ⟨holds, spared⟩ := Bool.or_eq_false_iff.mp whole
    exact ⟨⟨held, there, holds, allowed.congr rfl rfl⟩, of_decide_eq_false spared⟩
  · rintro ⟨⟨binding, found, whole, allowed⟩, spared⟩
    refine ⟨_, Option.map_eq_some_iff.mpr ⟨binding, found, rfl⟩, ?_, allowed.congr rfl rfl⟩
    simp [whole, spared]

/-- A list of uses is carried out exactly if each of them is admitted at the start and none of them
is of a variable that an earlier one gives away. -/
theorem run_uses_iff : (∃ after, before.run (uses.map .use) = .ok after) ↔
    (∀ use ∈ uses, before.Admits use) ∧
      uses.Pairwise fun earlier later => earlier ≠ .pass later.name .move := by
  induction uses generalizing before with
  | nil => simp [run_nil]
  | cons use rest ih =>
    have split : (∃ after, before.run ((use :: rest).map .use) = .ok after) ↔
        before.Admits use ∧ ∃ after, (before.used use).run (rest.map .use) = .ok after := by
      simp only [List.map_cons, run_cons, step, check_ok, Admits]
      constructor
      · rintro ⟨after, _, ⟨binding, found, whole, allowed, rfl⟩, later⟩
        exact ⟨⟨binding, found, whole, allowed⟩, after, later⟩
      · rintro ⟨⟨binding, found, whole, allowed⟩, after, later⟩
        exact ⟨after, _, ⟨binding, found, whole, allowed, rfl⟩, later⟩
    rw [split, ih, List.forall_mem_cons, List.pairwise_cons]
    simp only [admits_used]
    constructor
    · rintro ⟨here, later, apart⟩
      exact ⟨⟨here, fun other member => (later other member).1⟩, fun other member => (later other member).2, apart⟩
    · rintro ⟨⟨here, later⟩, spared, apart⟩
      exact ⟨here, fun other member => ⟨later other member, spared other member⟩, apart⟩

/-- Each use in the list was allowed by a variable that was there, whole, before the first. -/
theorem run_allows (ran : before.run (uses.map .use) = .ok after) {use : Use} (member : use ∈ uses) :
    before.Admits use :=
  (run_uses_iff.mp ⟨after, ran⟩).1 use member

theorem holds_of_run (ran : before.run (uses.map .use) = .ok after) {use : Use} (member : use ∈ uses) :
    before.Holds use.name := by
  obtain ⟨binding, found, whole, _⟩ := run_allows ran member
  exact ⟨binding, found, whole⟩

end Lowering.Scope
