import Lowering.Container.Access

/-! Text as a container of characters, which grows and shrinks like a vector and is ordered
like the entries of a dictionary. -/

namespace Lowering.Container

structure Text where
  items : Array Char := #[]
deriving BEq, DecidableEq, Repr, Inhabited

namespace Text

def ofString (text : String) : Text :=
  ⟨text.toList.toArray⟩

def toList (text : Text) : List Char :=
  text.items.toList

def toString (text : Text) : String :=
  String.ofList text.toList

def length (text : Text) : Nat :=
  text.items.size

def isEmpty (text : Text) : Bool :=
  text.length == 0

def get (text : Text) (index : Nat) : Except Fault Char :=
  Access.read text.items index

def set (text : Text) (index : Nat) (value : Char) : Except Fault Text :=
  mk <$> Access.write text.items index value

def append (text : Text) (value : Char) : Text :=
  ⟨text.items.push value⟩

def insert (text : Text) (index : Nat) (value : Char) : Except Fault Text :=
  mk <$> Access.insert text.items index value

def delete (text : Text) (index : Nat) : Except Fault (Char × Text) :=
  Prod.map id mk <$> Access.delete text.items index

def pop (text : Text) : Except Fault (Char × Text) :=
  Prod.map id mk <$> Access.pop text.items

/-- Compares characters in turn. A text that is a proper beginning of another comes first. -/
def compareChars : List Char → List Char → Ordering
  | [], [] => .eq
  | [], _ :: _ => .lt
  | _ :: _, [] => .gt
  | first :: rest, other :: others =>
    (compare first.toNat other.toNat).then (compareChars rest others)

instance : Ord Text :=
  ⟨fun first second => compareChars first.toList second.toList⟩

end Text
end Lowering.Container
