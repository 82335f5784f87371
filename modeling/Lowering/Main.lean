import Lowering.Command.Run

/-! The command on a real system: arguments, environment, files and streams. -/

namespace Lowering.Command

/-- A failure of the system, by its number where several share a kind. -/
def systemFault : IO.Error → SystemFault
  | .noFileOrDirectory .. => .notFound
  | .alreadyExists .. => .alreadyExists
  | .inappropriateType _ 20 _ => .notDirectory
  | .inappropriateType _ 21 _ => .isDirectory
  | error => .other (toString error)

def guarded (action : IO α) : IO (Except SystemFault α) := do
  try return .ok (← action) catch error => return .error (systemFault error)

/-- The files of the system. -/
def systemFiles : Files IO where
  read path := do
    match ← guarded (IO.FS.readBinFile path) with
    | .error fault => return .error fault
    | .ok bytes =>
      match String.fromUTF8? bytes with
      | some text => return .ok text
      | none => return .error .notText
  makeDirectories path := if path = "" then return .ok () else guarded (IO.FS.createDirAll path)
  write path text := guarded (IO.FS.writeFile path text)

def usage : String :=
  "Usage: serenec [OPTIONS] <INPUT>"

def help : String :=
  "Serene compiler - lowers a tagged parse tree to Rust source\n\n" ++ usage ++ "\n\nArguments:\n" ++
  "  <INPUT>  Parse tree file (JSON) produced by the Serene parser\n\nOptions:\n" ++
  "  -o, --out <FILE>  Write the generated program here instead of stdout\n" ++
  "      --bodies      Print each function's raw statement code instead of a full program\n" ++
  "      --trace       Enable compiler tracing on stderr\n" ++
  "  -h, --help        Print help"

end Lowering.Command

open Lowering.Command in
def main (arguments : List String) : IO UInt32 := do
  match Request.ofArguments arguments with
  | .error error =>
    IO.eprintln (error.message ++ "\n\n" ++ usage)
    return 2
  | .ok .help =>
    IO.println help
    return 0
  | .ok (.run options) =>
    let tracing := isTracing options (← IO.getEnv "SERENE_TRACE")
    let start ← IO.monoMsNow
    let report ← run systemFiles options
    IO.print report.output
    IO.eprint (report.complaints tracing (some ((← IO.monoMsNow) - start)))
    return report.exitCode.toUInt32
