import Lowering.Decimal.Shortest

/-! Parse trees as they arrive: generic values without any meaning of their own. A number
remembers whether it is whole, since that decides how its text reads. -/

namespace Lowering

inductive Number where
  | integer (value : Int)
  | float (value : Float)
deriving DecidableEq, Repr

namespace Number

/-- The text of a float: its shortest decimal, place by place while the leading digit stands
between the fifth place after the point and the sixteenth before it. Whole numbers keep a
fraction of zero, and the sign shows on a negative zero too. -/
def floatText (value : Float) : String :=
  let decimal := (Binary.ofFloat value).shortest .even
  let sign := if value.toBits >>> 63 = 1 then "-" else ""
  if -5 ≤ decimal.magnitude ∧ decimal.magnitude < 16 then
    sign ++ decimal.positional ++ (if 0 ≤ decimal.exponent then ".0" else "")
  else sign ++ decimal.scientific

def text : Number → String
  | integer value => Int.repr value
  | float value => floatText value

end Number

inductive Tree where
  | null
  | boolean (value : Bool)
  | number (value : Number)
  | text (value : String)
  | sequence (items : List Tree)
  /-- The keys are distinct. -/
  | mapping (entries : List (String × Tree))
deriving Repr, Inhabited

/-- What a tree is at its root, for messages about trees found in the wrong place. -/
inductive Shape where
  | null
  | boolean
  | number
  | text
  | sequence
  | mapping
deriving DecidableEq, Repr

def Shape.description : Shape → String
  | null => "null"
  | boolean => "a boolean"
  | number => "a number"
  | text => "text"
  | sequence => "a sequence"
  | mapping => "a mapping"

namespace Tree

def shape : Tree → Shape
  | null => .null
  | boolean _ => .boolean
  | number _ => .number
  | text _ => .text
  | sequence _ => .sequence
  | mapping _ => .mapping

/-- The text of a leaf. Numbers and truth values stand for their text, since not every writer
of trees puts them in quotes. -/
def leaf? : Tree → Option String
  | text value => some value
  | number value => some value.text
  | boolean true => some "true"
  | boolean false => some "false"
  | _ => none

end Tree
end Lowering
