/-! The arguments of the command. Options may stand anywhere and each at most once; a value
follows its option as the next argument or is joined to it, and after two dashes alone nothing
is an option any more. -/

namespace Lowering.Command

structure Options where
  input : String
  output : Option String
  bodies : Bool
  trace : Bool
deriving DecidableEq, Repr

inductive UsageError where
  | unexpected (argument : String)
  | repeated (option : String)
  | valueMissing (option : String)
  | valueUnwanted (option : String)
  | inputMissing
deriving DecidableEq, Repr

def UsageError.message : UsageError → String
  | unexpected argument => "error: unexpected argument '" ++ argument ++ "' found"
  | repeated option => "error: the argument '" ++ option ++ "' cannot be used multiple times"
  | valueMissing option =>
    "error: a value is required for '" ++ option ++ "' but none was supplied"
  | valueUnwanted option => "error: unexpected value for '" ++ option ++ "' found"
  | inputMissing => "error: the following required arguments were not provided:\n  <INPUT>"

/-- What the arguments ask for. -/
inductive Request where
  | help
  | run (options : Options)
deriving DecidableEq, Repr

/-- The arguments read so far. -/
structure Reading where
  input : Option String := none
  output : Option String := none
  bodies : Bool := false
  trace : Bool := false
  /-- An output option has been read and its value comes next. -/
  pending : Bool := false
  /-- Two dashes have been read. -/
  plain : Bool := false

namespace Reading

def outputOption : String :=
  "--out <FILE>"

def positional (reading : Reading) (argument : String) : Except UsageError Reading :=
  if reading.pending then .error (.valueMissing outputOption)
  else if reading.input.isSome then .error (.unexpected argument)
  else .ok { reading with input := some argument }

def outputValue (reading : Reading) (value : String) : Except UsageError Reading :=
  if reading.output.isSome then .error (.repeated outputOption)
  else .ok { reading with output := some value, pending := false }

/-- An option with a value joined to it, or one whose value comes next. -/
def outputFlag (reading : Reading) (value : Option String) : Except UsageError Reading :=
  match value with
  | some value => reading.outputValue value
  | none => .ok { reading with pending := true }

def bodiesFlag (reading : Reading) : Except UsageError Reading :=
  if reading.bodies then .error (.repeated "--bodies") else .ok { reading with bodies := true }

def traceFlag (reading : Reading) : Except UsageError Reading :=
  if reading.trace then .error (.repeated "--trace") else .ok { reading with trace := true }

/-- The name of a long option and the value behind its first equals sign. -/
def splitLong (option : List Char) : String × Option String :=
  let value := match option.dropWhile (· ≠ '=') with
    | [] => none
    | _ :: value => some (String.ofList value)
  (String.ofList (option.takeWhile (· ≠ '=')), value)

/-- The value joined to a short option, with or without an equals sign between them. -/
def shortValue : List Char → Option String
  | [] => none
  | '=' :: value => some (String.ofList value)
  | value => some (String.ofList value)

/-- One more argument. The answer is none where help is asked for, which ends the reading. -/
def next (reading : Reading) (argument : String) : Except UsageError (Option Reading) :=
  let option (read : Except UsageError Reading) : Except UsageError (Option Reading) :=
    if reading.pending then .error (.valueMissing outputOption) else some <$> read
  if reading.plain then some <$> reading.positional argument
  else match argument.toList with
    | ['-', '-'] => .ok (some { reading with plain := true })
    | '-' :: '-' :: long =>
      match splitLong long with
      | ("out", value) => option (reading.outputFlag value)
      | ("bodies", none) => option reading.bodiesFlag
      | ("trace", none) => option reading.traceFlag
      | ("help", none) => if reading.pending then .error (.valueMissing outputOption) else .ok none
      | (name, some _) =>
        if name ∈ ["bodies", "trace", "help"] then .error (.valueUnwanted ("--" ++ name))
        else .error (.unexpected argument)
      | _ => .error (.unexpected argument)
    | '-' :: 'o' :: value => option (reading.outputFlag (shortValue value))
    | '-' :: 'h' :: _ => if reading.pending then .error (.valueMissing outputOption) else .ok none
    | '-' :: _ :: _ => .error (.unexpected argument)
    | _ =>
      if reading.pending then some <$> reading.outputValue argument
      else some <$> reading.positional argument

def finish (reading : Reading) : Except UsageError Request :=
  if reading.pending then .error (.valueMissing outputOption)
  else match reading.input with
    | none => .error .inputMissing
    | some input => .ok (.run ⟨input, reading.output, reading.bodies, reading.trace⟩)

def run (reading : Reading) : List String → Except UsageError Request
  | [] => reading.finish
  | argument :: rest => do
    match ← reading.next argument with
    | none => return .help
    | some reading => reading.run rest

end Reading

/-- What the command is asked to do by its arguments. -/
def Request.ofArguments (arguments : List String) : Except UsageError Request :=
  Reading.run {} arguments

end Lowering.Command
