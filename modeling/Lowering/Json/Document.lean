import Lowering.Json.Token

/-! JSON documents. Tokens are read against a stack of the containers still open, so nesting is
limited only where a limit is asked for. -/

namespace Lowering.Json

/-- A container that is still open: its finished parts, the latest first, and in a mapping the
key whose value comes next. -/
inductive Opened where
  | sequence (items : List Tree)
  | mapping (entries : List (String × Tree)) (key : String)

/-- Adds an entry behind those of a mapping. Of entries with the same key the last one counts. -/
def addEntry (entries : List (String × Tree)) (key : String) (value : Tree) :
    List (String × Tree) :=
  (key, value) :: entries.filter fun entry => entry.1 ≠ key

/-- One more container may be opened within those of the stack. -/
def mayOpen (limit : Option Nat) (stack : List Opened) : Bool :=
  match limit with
  | none => true
  | some limit => stack.length < limit

mutual

/-- Reads on where a value must begin. -/
def value? (limit : Option Nat) : List Opened → List Token → Option Tree
  | stack, .null :: rest => continue? limit stack .null rest
  | stack, .boolean value :: rest => continue? limit stack (.boolean value) rest
  | stack, .number value :: rest => continue? limit stack (.number value) rest
  | stack, .text value :: rest => continue? limit stack (.text value) rest
  | stack, .openSequence :: .closeSequence :: rest =>
    if mayOpen limit stack then continue? limit stack (.sequence []) rest else none
  | stack, .openSequence :: rest =>
    if mayOpen limit stack then value? limit (.sequence [] :: stack) rest else none
  | stack, .openMapping :: .closeMapping :: rest =>
    if mayOpen limit stack then continue? limit stack (.mapping []) rest else none
  | stack, .openMapping :: .text key :: .colon :: rest =>
    if mayOpen limit stack then value? limit (.mapping [] key :: stack) rest else none
  | _, _ => none

/-- Reads on where a value has just ended. -/
def continue? (limit : Option Nat) : List Opened → Tree → List Token → Option Tree
  | [], tree, [] => some tree
  | .sequence items :: stack, tree, .comma :: rest =>
    value? limit (.sequence (tree :: items) :: stack) rest
  | .sequence items :: stack, tree, .closeSequence :: rest =>
    continue? limit stack (.sequence (tree :: items).reverse) rest
  | .mapping entries key :: stack, tree, .comma :: .text next :: .colon :: rest =>
    value? limit (.mapping (addEntry entries key tree) next :: stack) rest
  | .mapping entries key :: stack, tree, .closeMapping :: rest =>
    continue? limit stack (.mapping (addEntry entries key tree).reverse) rest
  | _, _, _ => none

end

/-- Reads a text as one document, with at most so many containers within each other. -/
def document? (limit : Option Nat) (text : String) : Option Tree := do
  value? limit [] (← tokens? text.toList)

end Lowering.Json
