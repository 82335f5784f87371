import Lowering.Command.Path

/-! A disk: directories and files under their full names, with the rules by which a system
follows paths, opens files and makes directories. -/

namespace Lowering

/-- Why the system refuses a request. -/
inductive SystemFault where
  | notFound
  | alreadyExists
  | notDirectory
  | isDirectory
  | nameTooLong
  | notText
  | other (message : String)
deriving DecidableEq, Repr

def SystemFault.message : SystemFault → String
  | notFound => "No such file or directory (os error 2)"
  | alreadyExists => "File exists (os error 17)"
  | notDirectory => "Not a directory (os error 20)"
  | isDirectory => "Is a directory (os error 21)"
  | nameTooLong => "File name too long (os error 36)"
  | notText => "stream did not contain valid UTF-8"
  | other message => message

inductive DiskEntry where
  | directory
  | file (bytes : ByteArray)

/-- The full name of an entry, from the top down. -/
abbrev Location : Type :=
  List String

/-- Entries with distinct locations. The top is a directory and has no entry of its own. -/
structure Disk where
  entries : List (Location × DiskEntry) := []
  /-- Where relative paths start. -/
  home : Location := []

namespace Disk

def find? (disk : Disk) (location : Location) : Option DiskEntry :=
  if location = [] then some .directory else disk.entries.lookup location

def put (disk : Disk) (location : Location) (entry : DiskEntry) : Disk :=
  { disk with entries := (location, entry) :: disk.entries.filter fun other => other.1 ≠ location }

/-- Where a path leads: to an entry, or to a free name in a directory. -/
inductive Target where
  | entry (location : Location) (entry : DiskEntry)
  | free (location : Location)

/-- How many bytes one name may have. -/
def longestName : Nat :=
  255

/-- How many bytes a whole path may have. -/
def longestPath : Nat :=
  4095

/-- What a directory holds under a name. -/
def held? (disk : Disk) (here : Location) (name : String) : Except SystemFault (Option DiskEntry) :=
  if longestName < name.utf8ByteSize then .error .nameTooLong
  else .ok (disk.find? (here ++ [name]))

/-- Follows names from a directory on, each to another directory. -/
def follow (disk : Disk) : Location → List String → Except SystemFault Location
  | here, [] => .ok here
  | here, "." :: rest => follow disk here rest
  | here, ".." :: rest => follow disk here.dropLast rest
  | here, name :: rest => do
    match ← disk.held? here name with
    | some .directory => follow disk (here ++ [name]) rest
    | some (.file _) => throw .notDirectory
    | none => throw .notFound

/-- Takes the last step of a path, which may lead anywhere. -/
def arrive (disk : Disk) (here : Location) : Option String → Except SystemFault Target
  | none | some "." => .ok (.entry here .directory)
  | some ".." => .ok (.entry here.dropLast .directory)
  | some name => do
    match ← disk.held? here name with
    | some entry => return .entry (here ++ [name]) entry
    | none => return .free (here ++ [name])

/-- The directory in which the last name of a path is looked up. -/
def above (disk : Disk) (path : String) : Except SystemFault Location :=
  if path = "" then .error .notFound
  else if longestPath < path.utf8ByteSize then .error .nameTooLong
  else disk.follow (if Path.isAbsolute path then [] else disk.home) (Path.names path).dropLast

def resolve (disk : Disk) (path : String) : Except SystemFault Target := do
  disk.arrive (← disk.above path) (Path.names path).getLast?

/-- The text of a file. A slash behind its name asks for a directory. -/
def read (disk : Disk) (path : String) : Except SystemFault String := do
  match ← disk.resolve path with
  | .free _ => throw .notFound
  | .entry _ .directory => throw .isDirectory
  | .entry _ (.file bytes) =>
    if Path.endsInSlash path then throw .notDirectory
    match String.fromUTF8? bytes with
    | some text => return text
    | none => throw .notText

/-- Writes a file, over an old one if there is one. A path that ends in a slash is refused as a
directory's before its last name is looked up. -/
def write (disk : Disk) (path text : String) : Except SystemFault Disk := do
  let here ← disk.above path
  if Path.endsInSlash path then throw .isDirectory
  match ← disk.arrive here (Path.names path).getLast? with
  | .entry _ .directory => throw .isDirectory
  | .free location | .entry location (.file _) => return disk.put location (.file text.toUTF8)

def isDirectory (disk : Disk) (path : String) : Bool :=
  match disk.resolve path with
  | .ok (.entry _ .directory) => true
  | _ => false

def makeDirectory (disk : Disk) (path : String) : Except SystemFault Disk := do
  match ← disk.resolve path with
  | .entry _ _ => throw .alreadyExists
  | .free location => return disk.put location .directory

/-- Makes a directory and those above it that are missing, given their paths from the innermost
outward. What was made before a refusal stays. -/
def makeDirectories (disk : Disk) : List String → Except SystemFault Unit × Disk
  | [] => (.ok (), disk)
  | path :: above =>
    let settle (disk : Disk) (fault : SystemFault) : Except SystemFault Unit × Disk :=
      if disk.isDirectory path then (.ok (), disk) else (.error fault, disk)
    match disk.makeDirectory path with
    | .ok disk => (.ok (), disk)
    | .error .notFound =>
      match makeDirectories disk above with
      | (.error fault, disk) => (.error fault, disk)
      | (.ok (), disk) =>
        match disk.makeDirectory path with
        | .ok disk => (.ok (), disk)
        | .error fault => settle disk fault
    | .error fault => settle disk fault

end Disk
end Lowering
