import Lowering.Command.Arguments
import Lowering.Proofs.ActionRuns

/-! The option that asks for tracing. Nothing else in the arguments depends on it, so it can be put in
front of arguments that go without it, and taken out of arguments that have it. -/

namespace Lowering.Command

namespace Reading

variable {reading after : Reading} {argument : String} {options : Options}

def withTrace (reading : Reading) (trace : Bool) : Reading :=
  { reading with trace }

theorem positional_withTrace (reading : Reading) (argument : String) (trace : Bool) :
    (reading.withTrace trace).positional argument = (·.withTrace trace) <$> reading.positional argument := by
  obtain ⟨input, output, bodies, _, pending, plain⟩ := reading
  cases pending <;> cases input <;> rfl

theorem outputValue_withTrace (reading : Reading) (value : String) (trace : Bool) :
    (reading.withTrace trace).outputValue value = (·.withTrace trace) <$> reading.outputValue value := by
  obtain ⟨input, output, bodies, _, pending, plain⟩ := reading
  cases output <;> rfl

theorem outputFlag_withTrace (reading : Reading) (value : Option String) (trace : Bool) :
    (reading.withTrace trace).outputFlag value = (·.withTrace trace) <$> reading.outputFlag value := by
  cases value with
  | none => rfl
  | some value => exact outputValue_withTrace reading value trace

theorem bodiesFlag_withTrace (reading : Reading) (trace : Bool) :
    (reading.withTrace trace).bodiesFlag = (·.withTrace trace) <$> reading.bodiesFlag := by
  obtain ⟨input, output, bodies, _, pending, plain⟩ := reading
  cases bodies <;> rfl

private theorem some_withTrace (read : Except UsageError Reading) (trace : Bool) :
    some <$> (·.withTrace trace) <$> read = Option.map (·.withTrace trace) <$> some <$> read := by
  cases read <;> rfl

private theorem splitLong_bare {long : List Char} {name : String} (split : splitLong long = (name, none)) :
    long = name.toList := by
  obtain ⟨named, valued⟩ := Prod.mk.injEq .. |>.mp split
  have short : long.dropWhile (· ≠ '=') = [] := by
    cases value : long.dropWhile (· ≠ '=') with
    | nil => rfl
    | cons mark rest =>
      rw [value] at valued
      cases valued
  rw [← named, String.toList_ofList]
  have whole := List.takeWhile_append_dropWhile (p := (· ≠ '=')) (l := long)
  rw [short, List.append_nil] at whole
  exact whole.symm

/-- What an argument does, other than the option itself, does not depend on tracing. -/
theorem next_withTrace (other : argument ≠ "--trace" ∨ reading.plain = true) (trace : Bool) :
    (reading.withTrace trace).next argument = Option.map (·.withTrace trace) <$> reading.next argument := by
  have pending : (reading.withTrace trace).pending = reading.pending := rfl
  by_cases plain : reading.plain = true
  · have plain' : (reading.withTrace trace).plain = true := plain
    simp only [next, plain, plain', if_true, positional_withTrace, some_withTrace]
  · have plain' : ¬ (reading.withTrace trace).plain = true := plain
    simp only [next, plain, plain', pending, Bool.false_eq_true, if_false, positional_withTrace,
      outputValue_withTrace, outputFlag_withTrace, bodiesFlag_withTrace, some_withTrace]
    generalize spelled : argument.toList = chars
    split
    · rfl
    · next long _ =>
      split
      · cases reading.pending <;> rfl
      · cases reading.pending <;> rfl
      · next bare =>
        have same : argument = "--trace" := String.toList_injective (spelled.trans (by rw [splitLong_bare bare]; rfl))
        exact absurd other (by simp [same, plain])
      · cases reading.pending <;> rfl
      · split <;> rfl
      · rfl
    · cases reading.pending <;> rfl
    · cases reading.pending <;> rfl
    · rfl
    · cases reading.pending <;> rfl

theorem trace_of_next (other : argument ≠ "--trace" ∨ reading.plain = true)
    (read : reading.next argument = .ok (some after)) : after.trace = reading.trace := by
  have same := next_withTrace other reading.trace
  rw [show reading.withTrace reading.trace = reading from rfl, read] at same
  have kept : after = after.withTrace reading.trace := Option.some.inj (Except.ok.inj same)
  rw [kept]
  rfl

private theorem next_long {first : Char} {rest : List Char} (option : ¬ reading.plain = true)
    (spelled : argument.toList = '-' :: '-' :: first :: rest) (named : splitLong (first :: rest) = ("trace", none)) :
    reading.next argument =
      if reading.pending then .error (.valueMissing outputOption) else some <$> reading.traceFlag := by
  simp only [next, option, Bool.false_eq_true, if_false, spelled, named]

private theorem next_option (option : ¬ reading.plain = true) : reading.next "--trace" =
    if reading.pending then .error (.valueMissing outputOption) else some <$> reading.traceFlag :=
  next_long option (rfl : "--trace".toList = '-' :: '-' :: 't' :: "race".toList) (by decide)

/-- The option itself is read once. -/
theorem next_traceOption (option : ¬ reading.plain = true) (read : reading.next "--trace" = .ok (some after)) :
    reading.trace = false ∧ after = reading.withTrace true := by
  rw [next_option option] at read
  split at read
  · cases read
  · unfold traceFlag at read
    split at read
    · cases read
    next fresh => exact ⟨by simpa using fresh, (Option.some.inj (Except.ok.inj read)).symm⟩

theorem run_cons_ok {arguments : List String} :
    reading.run (argument :: arguments) = .ok (.run options) ↔
      ∃ after, reading.next argument = .ok (some after) ∧ after.run arguments = .ok (.run options) := by
  simp only [run, except_bind_ok]
  constructor
  · rintro ⟨answer, read, rest⟩
    cases answer with
    | none => cases rest
    | some after => exact ⟨after, read, rest⟩
  · rintro ⟨after, read, rest⟩
    exact ⟨some after, read, rest⟩

/-- An argument is the option itself, or it leaves alone whether tracing is asked for. -/
theorem next_cases (read : reading.next argument = .ok (some after)) :
    argument = "--trace" ∧ reading.trace = false ∧ after = reading.withTrace true ∨
      after.trace = reading.trace ∧ ∀ trace, (reading.withTrace trace).next argument = .ok (some (after.withTrace trace)) := by
  by_cases other : argument ≠ "--trace" ∨ reading.plain = true
  · refine .inr ⟨trace_of_next other read, fun trace => ?_⟩
    rw [next_withTrace other, read]
    rfl
  · obtain ⟨same, option⟩ := not_or.mp other
    obtain rfl := not_not.mp same
    exact .inl ⟨rfl, next_traceOption option read⟩

theorem finish_ok (read : reading.finish = .ok (.run options)) (trace : Bool) :
    options.trace = reading.trace ∧ (reading.withTrace trace).finish = .ok (.run { options with trace }) := by
  obtain ⟨input, output, bodies, _, pending, plain⟩ := reading
  cases pending <;> cases input <;> cases read
  exact ⟨rfl, rfl⟩

/-- Tracing once asked for stays. -/
theorem trace_of_run {arguments : List String} (asked : reading.trace = true)
    (read : reading.run arguments = .ok (.run options)) : options.trace = true := by
  induction arguments generalizing reading with
  | nil => exact (finish_ok read true).1.trans asked
  | cons argument rest ih =>
    obtain ⟨after, first, later⟩ := run_cons_ok.mp read
    rcases next_cases first with ⟨_, fresh, _⟩ | ⟨kept, _⟩
    · rw [asked] at fresh
      cases fresh
    · exact ih (kept.trans asked) later

/-- Where the option is not read, it makes no difference to the rest whether it has been. -/
theorem run_withTrace {arguments : List String} (unread : options.trace = reading.trace)
    (read : reading.run arguments = .ok (.run options)) (trace : Bool) :
    (reading.withTrace trace).run arguments = .ok (.run { options with trace }) := by
  induction arguments generalizing reading with
  | nil => exact (finish_ok read trace).2
  | cons argument rest ih =>
    obtain ⟨after, first, later⟩ := run_cons_ok.mp read
    rcases next_cases first with ⟨_, fresh, rfl⟩ | ⟨kept, same⟩
    · have asked := trace_of_run rfl later
      rw [unread, fresh] at asked
      cases asked
    · exact run_cons_ok.mpr ⟨_, same trace, ih (unread.trans kept.symm) later⟩

/-- Arguments that ask for tracing can go without it. -/
theorem run_without {arguments : List String} (fresh : reading.trace = false) (asked : options.trace = true)
    (read : reading.run arguments = .ok (.run options)) :
    ∃ front rest, arguments = front ++ "--trace" :: rest ∧
      reading.run (front ++ rest) = .ok (.run { options with trace := false }) := by
  induction arguments generalizing reading with
  | nil =>
    rw [(finish_ok read true).1, fresh] at asked
    cases asked
  | cons argument rest ih =>
    obtain ⟨after, first, later⟩ := run_cons_ok.mp read
    rcases next_cases first with ⟨rfl, _, rfl⟩ | ⟨kept, _⟩
    · have without := run_withTrace asked later false
      have same : (reading.withTrace true).withTrace false = reading := by
        simp only [withTrace, ← fresh]
      rw [same] at without
      exact ⟨[], rest, rfl, without⟩
    · obtain ⟨front, back, rfl, without⟩ := ih (kept.trans fresh) later
      exact ⟨argument :: front, back, rfl, run_cons_ok.mpr ⟨after, first, without⟩⟩

end Reading

namespace Request

variable {arguments : List String} {options : Options}

theorem traced (unasked : options.trace = false) (valid : ofArguments arguments = .ok (.run options)) :
    ofArguments ("--trace" :: arguments) = .ok (.run { options with trace := true }) :=
  Reading.run_cons_ok.mpr ⟨_, Reading.next_option (by simp), Reading.run_withTrace unasked valid true⟩

theorem untraced (asked : options.trace = true) (valid : ofArguments arguments = .ok (.run options)) :
    ∃ front rest, arguments = front ++ "--trace" :: rest ∧
      ofArguments (front ++ rest) = .ok (.run { options with trace := false }) :=
  Reading.run_without rfl asked valid

end Request
end Lowering.Command
