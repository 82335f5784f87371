/-! Paths as text: pieces between slashes. A piece that is empty or a dot leads nowhere further,
yet it stays in the text, and so it counts when the length of a path is measured. A path that
begins with a slash starts at the top, every other where the command was started. -/

namespace Lowering.Path

/-- The text before, between and behind the slashes, which may be empty. -/
def segments : List Char → List (List Char)
  | [] => [[]]
  | '/' :: rest => [] :: segments rest
  | char :: rest =>
    match segments rest with
    | [] => [[char]]
    | first :: others => (char :: first) :: others

def pieces (path : String) : List String :=
  (segments path.toList).map String.ofList

/-- The pieces that name something, a dot included. -/
def names (path : String) : List String :=
  (pieces path).filter (· ≠ "")

def isAbsolute (path : String) : Bool :=
  path.toList.head? = some '/'

def endsInSlash (path : String) : Bool :=
  path.toList.getLast? = some '/'

/-- The piece leads from one directory to another. -/
def isStep (piece : String) : Bool :=
  piece ≠ "" && piece ≠ "."

/-- Where the steps of a path start, which may go without saying, and the pieces that follow. A
dot in front of a relative path is a start, so that such a path is never confused with none. -/
def fromStart (path : String) : String × List String :=
  match pieces path with
  | [""] => ("", [])
  | "" :: rest => ("/", rest)
  | "." :: rest => (".", rest)
  | pieces => ("", pieces)

/-- The text of pieces behind a start. -/
def join (start : String) (pieces : List String) : String :=
  (if start = "." then "./" else start) ++ "/".intercalate pieces

/-- The paths that end in the steps among some pieces, which are given from the last to the first,
and then the start. -/
def upward (start : String) : List String → List String
  | [] => if start = "" then [] else [start]
  | piece :: before =>
    if isStep piece then join start (piece :: before).reverse :: upward start before
    else upward start before

/-- A path up to its last step, and the paths of the directories above it, each a beginning of
the text. A relative path ends where the command was started, which needs no name. -/
def ancestors (path : String) : List String :=
  let (start, pieces) := fromStart path
  upward start pieces.reverse

/-- The path of the directory that holds what a path names. It is empty where that is the
directory in which the command was started, and for the top, which nothing holds. -/
def parent (path : String) : String :=
  (ancestors path).tail.headD ""

end Lowering.Path
