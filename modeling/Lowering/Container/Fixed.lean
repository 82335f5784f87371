import Lowering.Container.Access

/-! Arrays, whose length is settled when they are made. Elements are replaced but never added
or taken away. -/

namespace Lowering.Container

structure Fixed (α : Type) where
  items : Array α
deriving BEq, DecidableEq, Repr, Inhabited

namespace Fixed

variable {α : Type}

def ofList (items : List α) : Fixed α :=
  ⟨items.toArray⟩

def toList (array : Fixed α) : List α :=
  array.items.toList

def length (array : Fixed α) : Nat :=
  array.items.size

def isEmpty (array : Fixed α) : Bool :=
  array.length == 0

def get (array : Fixed α) (index : Nat) : Except Fault α :=
  Access.read array.items index

def set (array : Fixed α) (index : Nat) (value : α) : Except Fault (Fixed α) :=
  mk <$> Access.write array.items index value

end Fixed
end Lowering.Container
