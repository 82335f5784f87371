import Lowering.Container.Fault

/-! Access by position, checked against the bounds. Nothing is clamped and nothing wraps, and
an operation that is refused changes nothing. -/

namespace Lowering.Container.Access

def read (items : Array α) (index : Nat) : Except Fault α :=
  if inside : index < items.size then .ok items[index]
  else .error (.indexOutOfBounds index items.size)

def write (items : Array α) (index : Nat) (value : α) : Except Fault (Array α) :=
  if inside : index < items.size then .ok (items.set index value inside)
  else .error (.indexOutOfBounds index items.size)

/-- Inserts before a position. The position behind the last element is one too. -/
def insert (items : Array α) (index : Nat) (value : α) : Except Fault (Array α) :=
  if inside : index ≤ items.size then .ok (items.insertIdx index value inside)
  else .error (.indexOutOfBounds index items.size)

/-- Takes an element out and closes the gap. -/
def delete (items : Array α) (index : Nat) : Except Fault (α × Array α) :=
  if inside : index < items.size then .ok (items[index], items.eraseIdx index inside)
  else .error (.indexOutOfBounds index items.size)

/-- Takes the last element off. -/
def pop (items : Array α) : Except Fault (α × Array α) :=
  match items.back? with
  | some last => .ok (last, items.pop)
  | none => .error .empty

end Lowering.Container.Access
