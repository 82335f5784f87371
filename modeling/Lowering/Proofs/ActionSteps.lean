import Lowering.Proofs.ActionRuns
import Lowering.Proofs.ScopeLikeness

/-! Actions that take a scope through steps known beforehand. What such an action answers depends
on the declarations in the scope alone: wherever the same variables are declared and the same
steps go through, it answers the same, whatever else has been moved or reported. -/

namespace Lowering.Action

/-- Whenever the action succeeds, it has taken the scope through these steps. -/
def Performs (action : Action α) (steps : List Step) : Prop :=
  ∀ before value after, action before = (.ok value, after) →
    before.scope.run steps = .ok after.scope

/-- Whenever the first action succeeds, it has taken the scope through these steps, and the second
one succeeds with the same answer wherever the steps go through in a scope that is alike. -/
def Repeats (first second : Action α) (steps : List Step) : Prop :=
  ∀ before value after, first before = (.ok value, after) →
    before.scope.run steps = .ok after.scope ∧
      ∀ (again : Work) (last : Scope), before.scope.Alike again.scope → again.scope.run steps = .ok last →
        ∃ finished, second again = (.ok value, finished) ∧ finished.scope = last

namespace Repeats

theorem performs {first second : Action α} {steps : List Step} (repeats : Repeats first second steps) :
    Performs first steps :=
  fun before value after ran => (repeats before value after ran).1

variable {first second : Action α} {steps begun rest : List Step}

theorem throw (error : Error) : Repeats (throw error) second steps :=
  fun _ _ _ ran => (throw_ok ran).elim

/-- An action that leaves the scope alone and does not look at it. -/
private theorem silent (value : α)
    (answers : ∀ before result after, first before = (.ok result, after) → result = value ∧ before.scope = after.scope)
    (always : ∀ again : Work, ∃ finished, second again = (.ok value, finished) ∧ finished.scope = again.scope) :
    Repeats first second [] := by
  intro before result after ran
  obtain ⟨rfl, same⟩ := answers before result after ran
  refine ⟨Scope.run_nil.mpr same, fun again last _ idle => ?_⟩
  cases Scope.run_nil.mp idle
  exact always again

theorem pure (value : α) : Repeats (Pure.pure value) (Pure.pure value) [] := by
  refine silent value (fun before result after ran => ?_) fun again => ⟨again, rfl, rfl⟩
  obtain ⟨rfl, rfl⟩ := pure_ok.mp ran
  exact ⟨rfl, rfl⟩

theorem note (event : Event) : Repeats (Action.note event) (Action.note event) [] := by
  refine silent () (fun before result after ran => ?_) fun again => ⟨_, rfl, rfl⟩
  cases ran
  exact ⟨rfl, rfl⟩

/-- What follows has to be considered for the answers alone that the action can give. -/
theorem bind_answer {next next' : α → Action β} (repeats : Repeats first second begun)
    (continues : ∀ value before after, first before = (.ok value, after) → Repeats (next value) (next' value) rest) :
    Repeats (first >>= next) (second >>= next') (begun ++ rest) := by
  intro before value after ran
  obtain ⟨middle, work, start, finish⟩ := bind_ok.mp ran
  obtain ⟨taken, answers⟩ := repeats _ _ _ start
  obtain ⟨taken', answers'⟩ := continues middle _ _ start _ _ _ finish
  refine ⟨Scope.run_append.mpr ⟨work.scope, taken, taken'⟩, fun again last alike ran' => ?_⟩
  obtain ⟨between, opened, closed⟩ := Scope.run_append.mp ran'
  obtain ⟨reached, same, rfl⟩ := answers again between alike opened
  obtain ⟨finished, equal, lasts⟩ := answers' reached last (alike.run taken opened) closed
  exact ⟨finished, bind_ok.mpr ⟨middle, reached, same, equal⟩, lasts⟩

theorem bind {next next' : α → Action β} (repeats : Repeats first second begun)
    (continues : ∀ value, Repeats (next value) (next' value) rest) :
    Repeats (first >>= next) (second >>= next') (begun ++ rest) :=
  repeats.bind_answer fun value _ _ _ => continues value

theorem bind_last {next next' : α → Action β} (repeats : Repeats first second steps)
    (continues : ∀ value, Repeats (next value) (next' value) []) :
    Repeats (first >>= next) (second >>= next') steps := by
  simpa only [List.append_nil] using repeats.bind continues

theorem bind_first {next next' : α → Action β} (repeats : Repeats first second [])
    (continues : ∀ value, Repeats (next value) (next' value) steps) :
    Repeats (first >>= next) (second >>= next') steps :=
  repeats.bind continues

/-- Computations that leave the scope alone need not answer the same, as long as what follows
does not see the difference. -/
theorem lift_first {result : Except Error α} {result' : Except Error β} {next : α → Action γ} {next' : β → Action γ}
    (continues : ∀ value, result = .ok value →
      ∃ value', result' = .ok value' ∧ Repeats (next value) (next' value') steps) :
    Repeats (liftM result >>= next) (liftM result' >>= next') steps := by
  intro before value after ran
  obtain ⟨middle, work, start, finish⟩ := bind_ok.mp ran
  obtain ⟨succeeded, rfl⟩ := lift_ok.mp start
  obtain ⟨middle', succeeded', repeats⟩ := continues middle succeeded
  obtain ⟨taken, answers⟩ := repeats _ _ _ finish
  refine ⟨taken, fun again last alike ran' => ?_⟩
  obtain ⟨finished, same, lasts⟩ := answers again last alike ran'
  exact ⟨finished, bind_ok.mpr ⟨middle', again, lift_ok.mpr ⟨succeeded', rfl⟩, same⟩, lasts⟩

theorem lift (result : Except Error α) : Repeats (liftM result) (liftM result) [] := by
  cases result with
  | ok value => exact .pure value
  | error error => exact .throw error

theorem map (f : α → β) (repeats : Repeats first second steps) : Repeats (f <$> first) (f <$> second) steps := by
  rw [map_eq_pure_bind, map_eq_pure_bind]
  exact repeats.bind_last fun _ => .pure _

/-- A question about the scope that has the same answer in scopes that are alike. -/
private theorem inspect {question : Scope → Except Error α} {step : Step}
    (asks : ∀ {scope after : Scope}, scope.step step = .ok after ↔ ∃ value, question scope = .ok value ∧ scope = after)
    (agrees : ∀ {one other : Scope} {value value' : α}, one.Alike other → question one = .ok value →
      question other = .ok value' → value = value') :
    Repeats (Action.inspect question) (Action.inspect question) [step] := by
  intro before value after ran
  obtain ⟨answered, rfl⟩ := inspect_ok.mp ran
  refine ⟨Scope.run_one.mpr (asks.mpr ⟨value, answered, rfl⟩), fun again last alike ran' => ?_⟩
  obtain ⟨value', answered', rfl⟩ := asks.mp (Scope.run_one.mp ran')
  cases agrees alike answered answered'
  exact ⟨again, inspect_ok.mpr ⟨answered', rfl⟩, rfl⟩

theorem readable (name : String) :
    Repeats (Action.readable name) (Action.readable name) [.use (.read name)] :=
  inspect (fun {_ _} => except_map_ok) fun alike read read' => alike.readable read read'

theorem writable {name : String} {use : Use} (checks : use = .set name ∨ use = .change name) :
    Repeats (Action.writable name) (Action.writable name) [.use use] := by
  refine inspect (fun {scope after} => ?_) fun {one other value value'} alike allowed allowed' => ?_
  · rcases checks with rfl | rfl
    all_goals exact except_map_ok
  · obtain ⟨found, whole, _⟩ := Scope.writable_ok.mp allowed
    obtain ⟨found', whole', _⟩ := Scope.writable_ok.mp allowed'
    exact alike.readable (Scope.readable_ok.mpr ⟨found, whole⟩) (Scope.readable_ok.mpr ⟨found', whole'⟩)

/-- Reading a variable once more changes nothing, and so does not reading it again. -/
theorem read_first {name : String} {next next' : Binding → Action β}
    (continues : ∀ binding, Repeats (next binding) (next' binding) [] ∨
      Repeats (next binding) (next' binding) [.use (.read name)]) :
    Repeats (Action.readable name >>= next) (Action.readable name >>= next') [.use (.read name)] := by
  intro before value after ran
  obtain ⟨binding, work, checked, finish⟩ := bind_ok.mp ran
  obtain ⟨taken, answers⟩ := readable name _ _ _ checked
  obtain ⟨_, rfl⟩ := inspect_ok.mp checked
  have idle {scope last : Scope} (ran : scope.run [.use (.read name)] = .ok last) : scope = last := by
    obtain ⟨_, _, same⟩ := except_map_ok.mp (Scope.run_one.mp ran)
    exact same
  rcases continues binding with silent | reads
  · obtain ⟨still, answers'⟩ := silent _ _ _ finish
    refine ⟨by rw [← Scope.run_nil.mp still]; exact taken, fun again last alike ran' => ?_⟩
    obtain ⟨reached, same, lasts⟩ := answers again last alike ran'
    have back : reached.scope = again.scope := lasts.trans (idle ran').symm
    obtain ⟨finished, equal, lasts'⟩ := answers' reached _ (by rwa [back]) (Scope.run_nil.mpr rfl)
    exact ⟨finished, bind_ok.mpr ⟨binding, reached, same, equal⟩, lasts'.trans lasts⟩
  · obtain ⟨again', answers'⟩ := reads _ _ _ finish
    refine ⟨again', fun again last alike ran' => ?_⟩
    obtain ⟨reached, same, lasts⟩ := answers again last alike ran'
    have back : reached.scope = again.scope := lasts.trans (idle ran').symm
    obtain ⟨finished, equal, lasts'⟩ := answers' reached last (by rwa [back]) (by rwa [back])
    exact ⟨finished, bind_ok.mpr ⟨binding, reached, same, equal⟩, lasts'⟩

theorem change {step : Scope → Except Error Scope} {named : Step} (same : ∀ scope, step scope = scope.step named) :
    Repeats (Action.change step) (Action.change step) [named] := by
  intro before value after ran
  obtain ⟨scope, stepped, rfl⟩ := change_ok.mp ran
  refine ⟨Scope.run_one.mpr ((same _).symm.trans stepped), fun again last _ ran' => ?_⟩
  exact ⟨_, change_ok.mpr ⟨last, (same _).trans (Scope.run_one.mp ran'), rfl⟩, rfl⟩

theorem declare (name : String) (origin : Origin) :
    Repeats (Action.declare name origin) (Action.declare name origin) [.declare name origin] :=
  change fun _ => rfl

theorem pass (name : String) (accessor : Accessor) :
    Repeats (Action.pass name accessor) (Action.pass name accessor) [.use (.pass name accessor)] :=
  change fun _ => rfl

theorem between {opens closes : Scope → Scope} {opening closing : Step}
    (opened : ∀ scope : Scope, scope.step opening = .ok (opens scope))
    (closed : ∀ scope : Scope, scope.step closing = .ok (closes scope)) (repeats : Repeats first second steps) :
    Repeats (Action.between opens closes first) (Action.between opens closes second)
      (opening :: steps ++ [closing]) := by
  intro before value after ran
  obtain ⟨work, inner, rfl⟩ := between_ok.mp ran
  obtain ⟨inside, answers⟩ := repeats _ _ _ inner
  refine ⟨Scope.run_append.mpr ⟨work.scope, Scope.run_cons.mpr ⟨_, opened _, inside⟩, ?_⟩, ?_⟩
  · exact Scope.run_one.mpr (closed _)
  · intro again last alike ran'
    obtain ⟨reached, entered, left⟩ := Scope.run_append.mp ran'
    obtain ⟨start, begun, inside'⟩ := Scope.run_cons.mp entered
    cases (opened _).symm.trans begun
    cases (closed _).symm.trans (Scope.run_one.mp left)
    obtain ⟨finished, same, rfl⟩ := answers { again with scope := opens again.scope } _
      (alike.step (opened _) (opened _)) inside'
    exact ⟨_, between_ok.mpr ⟨finished, same, rfl⟩, rfl⟩

theorem inBlock (repeats : Repeats first second steps) :
    Repeats (Action.inBlock first) (Action.inBlock second) (.openBlock :: steps ++ [.closeBlock]) :=
  repeats.between (fun _ => rfl) (fun _ => rfl)

theorem inLoop (repeats : Repeats first second steps) :
    Repeats (Action.inLoop first) (Action.inLoop second) (.openLoop :: steps ++ [.closeLoop]) :=
  repeats.between (fun _ => rfl) (fun _ => rfl)

theorem mapM {f f' : α → Action β} {stepsOf : α → List Step} (items : List α)
    (repeats : ∀ item ∈ items, Repeats (f item) (f' item) (stepsOf item)) :
    Repeats (items.mapM f) (items.mapM f') (items.flatMap stepsOf) := by
  induction items with
  | nil => exact .pure []
  | cons item items ih =>
    rw [List.mapM_cons, List.mapM_cons, List.flatMap_cons]
    have later := ih fun other member => repeats other (List.mem_cons_of_mem item member)
    exact (repeats item List.mem_cons_self).bind fun _ => later.bind_last fun _ => .pure _

end Repeats
end Lowering.Action
