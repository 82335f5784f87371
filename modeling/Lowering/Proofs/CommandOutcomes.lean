import Mathlib
import Lowering.Command.Run
import Lowering.Proofs.DiskChanges
import Lowering.Proofs.TraceOption

/-! What the command leaves behind. Either all of a compiled text is delivered in one place, or
nothing is: before there is a text nothing is written, and only the output file can take it. Tracing
has no part in this. -/

namespace Lowering

namespace Disk

variable {disk after : Disk} {path text : String}

/-- The text is written to a file whose directory is made if it is missing. -/
def Saves (disk : Disk) (path text : String) (after : Disk) : Prop :=
  ∃ made, disk.makeDirectories (Path.ancestors (Path.parent path)) = (.ok (), made) ∧ made.write path text = .ok after

/-- A text that is saved is in one file, and beside it there are at most more directories. -/
theorem Saves.found (saves : disk.Saves path text after) :
    after.read path = .ok text ∧ ∃ location, after.resolve path = .ok (.entry location (.file text.toUTF8)) ∧
      ∀ other, other ≠ location → after.find? other = disk.find? other ∨
        disk.find? other = none ∧ after.find? other = some .directory := by
  obtain ⟨made, directories, written⟩ := saves
  have gains := makeDirectories_gains (Path.ancestors (Path.parent path)) disk
  rw [directories] at gains
  obtain ⟨reads, location, leads, same⟩ := write_ok written
  refine ⟨reads, location, leads, fun other apart => ?_⟩
  rw [same other apart]
  exact gains.find? other

end Disk

namespace Command

/-- What a run of the command comes to, with its error output. -/
structure Ending where
  exitCode : Nat
  output : String
  complaints : String
  disk : Disk

/-- The endings differ in the error output at most. -/
structure Ending.Same (one other : Ending) : Prop where
  exitCode : one.exitCode = other.exitCode
  output : one.output = other.output
  disk : one.disk = other.disk

namespace Options

/-- A run of the command on a disk, given what the environment says of tracing and the time that
passes. -/
def ending (options : Options) (setting : Option String) (milliseconds : Option Nat) (disk : Disk) : Ending :=
  let (report, after) := (run Files.ofDisk options).run disk
  ⟨report.exitCode, report.output, report.complaints (isTracing options setting) milliseconds, after⟩

/-- The input can be read and compiled, and this text is what is asked for of the program. -/
def Yields (options : Options) (disk : Disk) (text : String) : Prop :=
  ∃ source program, disk.read options.input = .ok source ∧ (Program.ofText source).1 = .ok program ∧
    if options.bodies then program.bodies = text else program.code = .ok text

variable {options : Options} {disk : Disk} {text : String}

theorem yields_iff : options.Yields disk text ↔ (compileInput options (disk.read options.input)).1 = .ok text := by
  unfold Yields compileInput
  cases disk.read options.input with
  | error fault => simp
  | ok source =>
    cases compiled : (Program.ofText source).1 with
    | error error => simp [compiled, bind, Except.bind, Except.mapError]
    | ok program =>
      simp only [compiled, bind, Except.bind, product, Except.ok.injEq, exists_eq_left', exists_and_left]
      split
      · simp [Except.mapError]
      · cases program.code <;> simp [Except.mapError]

private theorem run_lift_bind (first : StateM Disk α) (next : α → ExceptT Failure (StateM Disk) β) (disk : Disk) :
    ((liftM first : ExceptT Failure (StateM Disk) α) >>= next).run disk = (next (first disk).1).run (first disk).2 :=
  rfl

private theorem run_modifyGet (step : Disk → α × Disk) (disk : Disk) : (modifyGet step : StateM Disk α) disk = step disk :=
  rfl

section Save

variable {path : String} {made after : Disk} {fault : SystemFault}

theorem save_unmade (went : disk.makeDirectories (Path.ancestors (Path.parent path)) = (.error fault, made)) :
    (save Files.ofDisk path text).run disk = (.error (.withoutDirectory fault), made) := by
  have make : Files.ofDisk.makeDirectories (Path.parent path) disk = (.error fault, made) :=
    (run_modifyGet _ disk).trans went
  unfold save
  rw [run_lift_bind, make]
  rfl

theorem save_made (went : disk.makeDirectories (Path.ancestors (Path.parent path)) = (.ok (), made))
    {answer : Except SystemFault Unit} (written : Files.ofDisk.write path text made = (answer, after)) :
    (save Files.ofDisk path text).run disk = (answer.mapError .unwritable, after) := by
  have make : Files.ofDisk.makeDirectories (Path.parent path) disk = (.ok (), made) :=
    (run_modifyGet _ disk).trans went
  unfold save
  rw [run_lift_bind, make]
  simp only
  rw [run_lift_bind, written]
  cases answer <;> rfl

theorem save_unwritten (went : disk.makeDirectories (Path.ancestors (Path.parent path)) = (.ok (), made))
    (refused : made.write path text = .error fault) :
    (save Files.ofDisk path text).run disk = (.error (.unwritable fault), made) := by
  have write : Files.ofDisk.write path text made = (.error fault, made) := by
    refine (run_modifyGet _ made).trans ?_
    simp only [refused]
  exact save_made went write

theorem save_ok (saves : disk.Saves path text after) : (save Files.ofDisk path text).run disk = (.ok (), after) := by
  obtain ⟨made, went, written⟩ := saves
  have write : Files.ofDisk.write path text made = (.ok (), after) := by
    refine (run_modifyGet _ made).trans ?_
    simp only [written]
  exact save_made went write

end Save

private theorem run_bind (first : StateM Disk α) (next : α → StateM Disk β) (disk : Disk) :
    (first >>= next).run disk = (next (first disk).1).run (first disk).2 :=
  rfl

private theorem run_read (path : String) (disk : Disk) : Files.ofDisk.read path disk = (disk.read path, disk) := by
  simp only [Files.ofDisk]
  rfl

theorem run_ofDisk (options : Options) (disk : Disk) : (run Files.ofDisk options).run disk =
    let (outcome, events) := compileInput options (disk.read options.input)
    let events := .reading options.input :: events
    match outcome, options.output with
    | .error failure, _ => (⟨"", some failure, events⟩, disk)
    | .ok text, none => (⟨text, none, events⟩, disk)
    | .ok text, some path =>
      match (save Files.ofDisk path text).run disk with
      | (.error failure, after) => (⟨"", some failure, events⟩, after)
      | (.ok (), after) => (⟨"", none, events ++ [.wrote path]⟩, after) := by
  unfold run
  rw [run_bind, run_read]
  simp only
  obtain ⟨outcome, events⟩ := compileInput options (disk.read options.input)
  cases outcome with
  | error failure => rfl
  | ok text =>
    cases options.output with
    | none => rfl
    | some path =>
      simp only
      rw [run_bind]
      generalize (save Files.ofDisk path text).run disk = answer
      obtain ⟨_ | _, after⟩ := answer <;> rfl

variable (setting : Option String) (milliseconds : Option Nat)

theorem ending_without (fails : ¬ ∃ text, options.Yields disk text) :
    let ended := options.ending setting milliseconds disk
    ended.exitCode = 1 ∧ ended.output = "" ∧ ended.disk = disk := by
  cases compiled : (compileInput options (disk.read options.input)).1 with
  | error failure => simp [ending, run_ofDisk, compiled, Report.exitCode]
  | ok text => exact absurd ⟨text, yields_iff.mpr compiled⟩ fails

theorem ending_printed (yields : options.Yields disk text) (printed : options.output = none) :
    let ended := options.ending setting milliseconds disk
    ended.exitCode = 0 ∧ ended.output = text ∧ ended.disk = disk := by
  rw [yields_iff] at yields
  simp [ending, run_ofDisk, yields, printed, Report.exitCode]

variable {path : String}

theorem ending_saved (yields : options.Yields disk text) (filed : options.output = some path) {after : Disk}
    (saves : disk.Saves path text after) :
    let ended := options.ending setting milliseconds disk
    ended.exitCode = 0 ∧ ended.output = "" ∧ ended.disk = after := by
  rw [yields_iff] at yields
  simp [ending, run_ofDisk, yields, filed, save_ok saves, Report.exitCode]

theorem ending_unsaved (yields : options.Yields disk text) (filed : options.output = some path)
    (fails : ¬ ∃ after, disk.Saves path text after) :
    let ended := options.ending setting milliseconds disk
    ended.exitCode = 1 ∧ ended.output = "" ∧ disk.GainsDirectories ended.disk := by
  rw [yields_iff] at yields
  have gains := Disk.makeDirectories_gains (Path.ancestors (Path.parent path)) disk
  cases went : disk.makeDirectories (Path.ancestors (Path.parent path)) with
  | mk answer made =>
    rw [went] at gains
    cases answer with
    | error fault => simpa [ending, run_ofDisk, yields, filed, save_unmade went, Report.exitCode] using gains
    | ok _ =>
      cases written : made.write path text with
      | error fault =>
        simpa [ending, run_ofDisk, yields, filed, save_unwritten went written, Report.exitCode] using gains
      | ok after => exact absurd ⟨after, made, went, written⟩ fails

/-- Tracing changes the error output alone. -/
theorem ending_same (trace : Bool) (setting other : Option String) (milliseconds time : Option Nat) (disk : Disk) :
    ({ options with trace }.ending setting milliseconds disk).Same (options.ending other time disk) := by
  have same : run Files.ofDisk { options with trace } = run Files.ofDisk options := rfl
  unfold ending
  rw [same]
  obtain ⟨report, after⟩ := (run Files.ofDisk options).run disk
  exact ⟨rfl, rfl, rfl⟩

end Options

/-- The command is all or nothing. Where there is no text, since the input cannot be read or compiled or
the program cannot be written out, nothing is delivered and nothing on the disk changes. A text goes to
the output or else to a file, whole; where the file cannot be written the run fails and delivers
nothing. Nothing of this depends on tracing, which is an option and a setting of the environment. The
output and the error output are taken to accept whatever is written to them, so that only the input, the
program and the output file can make a run fail. -/
theorem all_or_nothing {arguments : List String} {options : Options}
    (valid : Request.ofArguments arguments = .ok (.run options)) (setting : Option String) (milliseconds : Option Nat)
    (disk : Disk) :
    let ended := options.ending setting milliseconds disk
    ((¬ ∃ text, options.Yields disk text) → ended.exitCode = 1 ∧ ended.output = "" ∧ ended.disk = disk) ∧
    (∀ text, options.Yields disk text → options.output = none →
      ended.exitCode = 0 ∧ ended.output = text ∧ ended.disk = disk) ∧
    (∀ text path, options.Yields disk text → options.output = some path → (¬ ∃ after, disk.Saves path text after) →
      ended.exitCode = 1 ∧ ended.output = "" ∧ disk.GainsDirectories ended.disk) ∧
    (∀ text path after, options.Yields disk text → options.output = some path → disk.Saves path text after →
      ended.exitCode = 0 ∧ ended.output = "" ∧ ended.disk = after ∧ after.read path = .ok text ∧
        ∃ location, after.resolve path = .ok (.entry location (.file text.toUTF8)) ∧
          ∀ other, other ≠ location → after.find? other = disk.find? other ∨
            disk.find? other = none ∧ after.find? other = some .directory) ∧
    (∀ other time, (options.ending other time disk).Same ended) ∧
    (options.trace = false → ∃ traced, Request.ofArguments ("--trace" :: arguments) = .ok (.run traced) ∧
      traced.trace = true ∧ ∀ other time, (traced.ending other time disk).Same ended) ∧
    (options.trace = true → ∃ front rest untraced, arguments = front ++ "--trace" :: rest ∧
      Request.ofArguments (front ++ rest) = .ok (.run untraced) ∧ untraced.trace = false ∧
      ∀ other time, (untraced.ending other time disk).Same ended) := by
  refine ⟨Options.ending_without _ _, fun text => Options.ending_printed _ _,
    fun text path => Options.ending_unsaved _ _, ?_, fun other time => Options.ending_same .., fun unasked => ?_,
    fun asked => ?_⟩
  · intro text path after yields filed saves
    obtain ⟨code, output, left⟩ := Options.ending_saved setting milliseconds yields filed saves
    exact ⟨code, output, left, saves.found⟩
  · exact ⟨_, Request.traced unasked valid, rfl, fun other time => Options.ending_same ..⟩
  · obtain ⟨front, rest, same, without⟩ := Request.untraced asked valid
    exact ⟨front, rest, _, same, without, rfl, fun other time => Options.ending_same ..⟩

section Sample

private def source : String :=
  "\x7b\"functions\":[\x7b\"function\":[\x7b\"identifier\":\"main\"\x7d]\x7d]\x7d"

private def holding : Disk :=
  ⟨[(["in"], .file source.toUTF8)], []⟩

private def requested : Options :=
  ⟨"in", some "text", true, true⟩

private theorem requested_valid :
    Request.ofArguments ["in", "--trace", "-o", "text", "--bodies"] = .ok (.run requested) := by
  cbv

private theorem holding_yields : requested.Yields holding "\n" := by
  refine ⟨source, ⟨[⟨"main", [], none, [], ""⟩]⟩, ?_, ?_, ?_⟩ <;> cbv

private theorem holding_saves : ∃ after, holding.Saves "text" "\n" after := by
  have written : (holding.write "text" "\n").isOk = true := by cbv
  obtain ⟨after, written⟩ := except_isOk.mp written
  have near : Path.ancestors (Path.parent "text") = [] := by cbv
  exact ⟨after, holding, by rw [near]; rfl, written⟩

private theorem nothing_yields : ¬ ∃ text, requested.Yields {} text := by
  rintro ⟨_, _, _, read, _⟩
  have missing : ({} : Disk).read requested.input = .error .notFound := by cbv
  rw [missing] at read
  cases read

/-- A run that has its input and one that has not. -/
theorem sample_all_or_nothing :
    (requested.ending none none holding).exitCode = 0 ∧ (requested.ending none none holding).output = "" ∧
    (requested.ending none none holding).disk.read "text" = .ok "\n" ∧
    (requested.ending none none {}).exitCode = 1 ∧ (requested.ending none none {}).disk = {} := by
  obtain ⟨_, _, _, saved, _⟩ := all_or_nothing requested_valid none none holding
  obtain ⟨failed, _⟩ := all_or_nothing requested_valid none none {}
  obtain ⟨after, saves⟩ := holding_saves
  obtain ⟨code, output, left, reads, _⟩ := saved _ _ _ holding_yields rfl saves
  obtain ⟨refused, _, same⟩ := failed nothing_yields
  exact ⟨code, output, left ▸ reads, refused, same⟩

end Sample

end Command
end Lowering
