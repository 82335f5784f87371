/-! The four ways of handing a value to a function, and what each says of ownership. -/

namespace Lowering

inductive Accessor where
  /-- An immutable reference. -/
  | look
  /-- A mutable reference. -/
  | mutate
  /-- Ownership is given away and the source may no longer be used. -/
  | move
  /-- A duplicate is given away and the source keeps its value. -/
  | copy
deriving DecidableEq, Repr, Inhabited

namespace Accessor

/-- The accessor that a written token names. Looking is what the absence of a token means, so
no token names it. -/
def ofToken? : String → Option Accessor
  | "mutate" => some mutate
  | "move" => some move
  | "copy" => some copy
  | _ => none

def name : Accessor → String
  | look => "look"
  | mutate => "mutate"
  | move => "move"
  | copy => "copy"

/-- The function called receives a reference rather than a value of its own. -/
def isLoan : Accessor → Bool
  | look | mutate => true
  | move | copy => false

end Accessor
end Lowering
