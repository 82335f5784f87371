/-! Lines of code and their indentation. A line keeps the line break that ends it, so lines put
together again give the text. -/

namespace Lowering.Layout

/-- Cuts a text after every line break. Only the last line may lack one, and no line is empty. -/
def lines : List Char → List (List Char)
  | [] => []
  | char :: rest =>
    if char = '\n' then [char] :: lines rest
    else match lines rest with
      | [] => [[char]]
      | line :: later => (char :: line) :: later

def pad (levels : Nat) : List Char :=
  List.replicate (4 * levels) ' '

/-- Four spaces for each level before a line, but nothing before a bare line break. -/
def indentLine (levels : Nat) (line : List Char) : List Char :=
  if line = ['\n'] then line else pad levels ++ line

def indentChars (levels : Nat) (text : List Char) : List Char :=
  (lines text).flatMap (indentLine levels)

def indent (levels : Nat) (text : String) : String :=
  String.ofList (indentChars levels text.toList)

end Lowering.Layout
