import Lowering.Command.Arguments
import Lowering.Command.Disk
import Lowering.Source

/-! One run of the command. It reads the input, compiles it, and delivers the text to a file or
to the output; the first thing that fails ends it, and only then is anything written. What it
does to files goes through an interface, behind which there may be the system or a disk of
its own. -/

namespace Lowering.Command

/-- What a run asks of the files. -/
structure Files (m : Type → Type) where
  read : String → m (Except SystemFault String)
  makeDirectories : String → m (Except SystemFault Unit)
  write : String → String → m (Except SystemFault Unit)

/-- The files of a disk. -/
def Files.ofDisk : Files (StateM Disk) where
  read path := do return (← get).read path
  makeDirectories path := modifyGet fun disk =>
    disk.makeDirectories (Path.ancestors path)
  write path text := modifyGet fun disk =>
    match disk.write path text with
    | .ok disk => (.ok (), disk)
    | .error fault => (.error fault, disk)

inductive Failure where
  | unreadable (path : String) (fault : SystemFault)
  | refused (error : SourceError)
  | withoutDirectory (fault : SystemFault)
  | unwritable (fault : SystemFault)
deriving DecidableEq, Repr

def Failure.message : Failure → String
  | unreadable path fault => "COMPILE ERROR:\nFailed to read " ++ path ++ ": " ++ fault.message
  | refused error => "COMPILE ERROR:\n" ++ error.message
  | withoutDirectory fault => "Failed to create output directory: " ++ fault.message
  | unwritable fault => "Failed to write output: " ++ fault.message

/-- What a run leaves behind besides files. -/
structure Report where
  output : String
  failure : Option Failure
  events : List Event
deriving DecidableEq, Repr

namespace Report

def exitCode (report : Report) : Nat :=
  if report.failure.isSome then 1 else 0

/-- The lines for the error output. With tracing the run's begin and end and every event are
among them, and the end may tell the time that has passed. -/
def complaints (report : Report) (tracing : Bool) (milliseconds : Option Nat) : String :=
  let events := report.events.map fun event => "[TRACE] " ++ event.message
  let failure := report.failure.toList.map Failure.message
  let time := match milliseconds with
    | none => ""
    | some count => " ms=" ++ Nat.repr count
  let lines :=
    if tracing then
      ["[PHASE] serenec_run=start"] ++ events ++ failure ++ ["[PHASE] serenec_run=end" ++ time]
    else failure
  String.join (lines.map (· ++ "\n"))

end Report

/-- Tracing is asked for by an option, or by the environment whatever value it gives. -/
def isTracing (options : Options) (setting : Option String) : Bool :=
  options.trace || setting.isSome

/-- The text that a compiled program is delivered as. -/
def product (options : Options) (program : Program) : Except SourceError String :=
  if options.bodies then .ok program.bodies else program.code.mapError .refused

/-- The text of an input, compiled, and what was reported on the way. -/
def compileInput (options : Options) (input : Except SystemFault String) :
    Except Failure String × List Event :=
  match input with
  | .error fault => (.error (.unreadable options.input fault), [])
  | .ok text =>
    let (outcome, events) := Program.ofText text
    ((outcome >>= product options).mapError .refused, events)

/-- Writes a text to a file, in a directory that is made if it is missing. -/
def save [Monad m] (files : Files m) (path text : String) : ExceptT Failure m Unit := do
  if let .error fault ← files.makeDirectories (Path.parent path) then
    throw (.withoutDirectory fault)
  if let .error fault ← files.write path text then throw (.unwritable fault)

/-- Runs the command. -/
def run [Monad m] (files : Files m) (options : Options) : m Report := do
  let (outcome, events) := compileInput options (← files.read options.input)
  let events := .reading options.input :: events
  match outcome, options.output with
  | .error failure, _ => return ⟨"", some failure, events⟩
  | .ok text, none => return ⟨text, none, events⟩
  | .ok text, some path =>
    match ← (save files path text).run with
    | .error failure => return ⟨"", some failure, events⟩
    | .ok () => return ⟨"", none, events ++ [.wrote path]⟩

end Lowering.Command
