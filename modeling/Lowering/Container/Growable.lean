import Lowering.Container.Access

/-! Vectors, which grow and shrink by one element at a time. -/

namespace Lowering.Container

structure Growable (α : Type) where
  items : Array α := #[]
deriving BEq, DecidableEq, Repr, Inhabited

namespace Growable

variable {α : Type}

def ofList (items : List α) : Growable α :=
  ⟨items.toArray⟩

def toList (vector : Growable α) : List α :=
  vector.items.toList

def length (vector : Growable α) : Nat :=
  vector.items.size

def isEmpty (vector : Growable α) : Bool :=
  vector.length == 0

def get (vector : Growable α) (index : Nat) : Except Fault α :=
  Access.read vector.items index

def set (vector : Growable α) (index : Nat) (value : α) : Except Fault (Growable α) :=
  mk <$> Access.write vector.items index value

def append (vector : Growable α) (value : α) : Growable α :=
  ⟨vector.items.push value⟩

def insert (vector : Growable α) (index : Nat) (value : α) : Except Fault (Growable α) :=
  mk <$> Access.insert vector.items index value

def delete (vector : Growable α) (index : Nat) : Except Fault (α × Growable α) :=
  Prod.map id mk <$> Access.delete vector.items index

def pop (vector : Growable α) : Except Fault (α × Growable α) :=
  Prod.map id mk <$> Access.pop vector.items

/-- Looks for an element of a sorted vector among the positions from `lower` up to `upper`. -/
def searchBetween [Ord α] (vector : Growable α) (target : α) (lower upper : Nat) : Option Nat :=
  if lower < upper then
    let middle := lower + (upper - lower) / 2
    match vector.items[middle]? with
    | none => none
    | some item =>
      match compare item target with
      | .lt => searchBetween vector target (middle + 1) upper
      | .eq => some middle
      | .gt => searchBetween vector target lower middle
  else none
termination_by upper - lower

/-- The position of an element in a sorted vector. -/
def binarySearch [Ord α] (vector : Growable α) (target : α) : Option Nat :=
  vector.searchBetween target 0 vector.length

end Growable
end Lowering.Container
