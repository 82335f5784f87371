import Mathlib.Data.List.InsertIdx
import Lowering.Container.Fixed
import Lowering.Container.Growable
import Lowering.Container.Text

/-! What an operation on a container does to its elements. Every kind of container answers as a list
of the elements would: whether it allows the operation depends on its length alone, and one that it
refuses says which index missed which length, or that nothing was there to be taken. -/

namespace Lowering.Container

/-- An operation on a container, and which of them only a container that grows has. -/
inductive Edit (α : Type) (grows : Bool) where
  | get (index : Nat)
  | set (index : Nat) (value : α)
  | append (value : α) (growing : grows = true)
  | insert (index : Nat) (value : α) (growing : grows = true)
  | delete (index : Nat) (growing : grows = true)
  | pop (growing : grows = true)

namespace Edit

variable {α : Type} {grows : Bool}

/-- Why a container of some length refuses an operation, if it does. -/
def refusal (length : Nat) : Edit α grows → Option Fault
  | get index | set index _ | delete index _ =>
    if index < length then none else some (.indexOutOfBounds index length)
  | insert index _ _ => if index ≤ length then none else some (.indexOutOfBounds index length)
  | append _ _ => none
  | pop _ => if 0 < length then none else some .empty

/-- The element that an operation gives back. -/
def given (items : List α) : Edit α grows → Option α
  | get index | delete index _ => items[index]?
  | pop _ => items.getLast?
  | set _ _ | append _ _ | insert _ _ _ => none

/-- The elements that an operation leaves. -/
def left (items : List α) : Edit α grows → List α
  | get _ => items
  | set index value => items.set index value
  | append value _ => items ++ [value]
  | insert index value _ => items.insertIdx index value
  | delete index _ => items.eraseIdx index
  | pop _ => items.dropLast

/-- An operation on a list, with what it gives back and what it leaves. -/
def onList (items : List α) (edit : Edit α grows) : Except Fault (Option α × List α) :=
  match edit.refusal items.length with
  | some fault => .error fault
  | none => .ok (edit.given items, edit.left items)

/-- A container that does not grow keeps its length. -/
theorem length_left (fixed : grows = false) (items : List α) (change : Edit α grows) :
    (change.left items).length = items.length := by
  subst fixed
  cases change with
  | get index => rfl
  | set index value => exact List.length_set
  | append _ growing | insert _ _ growing | delete _ growing | pop growing => cases growing

theorem onList_ok {items after : List α} {given : Option α} {change : Edit α grows} :
    change.onList items = .ok (given, after) ↔
      change.refusal items.length = none ∧ change.given items = given ∧ change.left items = after := by
  unfold onList
  cases change.refusal items.length <;> simp

theorem onList_error {items : List α} {fault : Fault} {change : Edit α grows} :
    change.onList items = .error fault ↔ change.refusal items.length = some fault := by
  unfold onList
  cases change.refusal items.length <;> simp

variable {items : List α} {index : Nat} (growing : grows = true)

theorem insert_delete (inside : index ≤ items.length) (value : α) :
    ∃ between, (insert index value growing).onList items = .ok (none, between) ∧
      (delete index growing).onList between = .ok (some value, items) := by
  have longer : index < (items.insertIdx index value).length := by
    rw [List.length_insertIdx_of_le_length inside]
    exact Nat.lt_succ_of_le inside
  have found : (items.insertIdx index value)[index]? = some value := by
    rw [List.getElem?_insertIdx_self, if_pos inside]
  exact ⟨_, onList_ok.mpr ⟨if_pos inside, rfl, rfl⟩,
    onList_ok.mpr ⟨if_pos longer, found, List.eraseIdx_insertIdx_self value⟩⟩

theorem delete_insert (inside : index < items.length) :
    ∃ between, (delete index growing).onList items = .ok (some items[index], between) ∧
      (insert index items[index] growing).onList between = .ok (none, items) := by
  have shorter : index ≤ (items.eraseIdx index).length := by
    rw [List.length_eraseIdx_of_lt inside]
    exact Nat.le_pred_of_lt inside
  exact ⟨_, onList_ok.mpr ⟨if_pos inside, List.getElem?_eq_getElem inside, rfl⟩,
    onList_ok.mpr ⟨if_pos shorter, rfl, List.insertIdx_eraseIdx_getElem inside⟩⟩

end Edit

namespace Access

variable {α : Type} {grows : Bool} (items : Array α) (index : Nat) (value : α)

theorem read_follows : (read items index).map (fun found => (some found, items.toList)) =
    (Edit.get index : Edit α grows).onList items.toList := by
  by_cases inside : index < items.size <;>
    simp [read, Edit.onList, Edit.refusal, Edit.given, Edit.left, inside, Except.map]

theorem write_follows : (write items index value).map (fun after => (none, after.toList)) =
    (Edit.set index value : Edit α grows).onList items.toList := by
  by_cases inside : index < items.size <;>
    simp [write, Edit.onList, Edit.refusal, Edit.given, Edit.left, inside, Except.map]

variable (growing : grows = true)

theorem insert_follows : (insert items index value).map (fun after => (none, after.toList)) =
    (Edit.insert index value growing).onList items.toList := by
  by_cases inside : index ≤ items.size <;>
    simp [insert, Edit.onList, Edit.refusal, Edit.given, Edit.left, inside, Except.map]

theorem delete_follows : (delete items index).map (Prod.map some Array.toList) =
    (Edit.delete index growing).onList items.toList := by
  by_cases inside : index < items.size <;>
    simp [delete, Edit.onList, Edit.refusal, Edit.given, Edit.left, inside, Except.map]

theorem pop_follows : (pop items).map (Prod.map some Array.toList) = (Edit.pop growing).onList items.toList := by
  cases found : items.back? with
  | none =>
    cases Array.back?_eq_none_iff.mp found
    rfl
  | some last =>
    have inside : 0 < items.size := Array.size_pos_iff.mpr fun empty => by rw [empty] at found; cases found
    simp [pop, found, Edit.onList, Edit.refusal, Edit.given, Edit.left, inside, Except.map]

end Access

/-- The operations of a container that grows. -/
structure Growing (α Holder : Type) where
  get : Holder → Nat → Except Fault α
  set : Holder → Nat → α → Except Fault Holder
  append : Holder → α → Holder
  insert : Holder → Nat → α → Except Fault Holder
  delete : Holder → Nat → Except Fault (α × Holder)
  pop : Holder → Except Fault (α × Holder)

namespace Growing

variable {α Holder : Type}

def edit (operations : Growing α Holder) (held : Holder) : Edit α true → Except Fault (Option α × Holder)
  | .get index => (operations.get held index).map fun value => (some value, held)
  | .set index value => (operations.set held index value).map fun after => (none, after)
  | .append value _ => .ok (none, operations.append held value)
  | .insert index value _ => (operations.insert held index value).map fun after => (none, after)
  | .delete index _ => (operations.delete held index).map (Prod.map some id)
  | .pop _ => (operations.pop held).map (Prod.map some id)

/-- Access by position to what a container holds. -/
def ofItems (hold : Array α → Holder) (items : Holder → Array α) : Growing α Holder where
  get held := Access.read (items held)
  set held index value := hold <$> Access.write (items held) index value
  append held value := hold ((items held).push value)
  insert held index value := hold <$> Access.insert (items held) index value
  delete held index := Prod.map id hold <$> Access.delete (items held) index
  pop held := Prod.map id hold <$> Access.pop (items held)

theorem ofItems_follows {hold : Array α → Holder} {items : Holder → Array α}
    (kept : ∀ inside, items (hold inside) = inside) (held : Holder) (change : Edit α true) :
    ((ofItems hold items).edit held change).map (Prod.map id fun after => (items after).toList) =
      change.onList (items held).toList := by
  cases change with
  | get index =>
    rw [← Access.read_follows]
    simp only [edit, ofItems]
    cases Access.read (items held) index <;> rfl
  | set index value =>
    rw [← Access.write_follows]
    simp only [edit, ofItems]
    cases Access.write (items held) index value <;> simp [Except.map, kept]
  | append value growing => simp [edit, ofItems, kept, Edit.onList, Edit.refusal, Edit.given, Edit.left, Except.map]
  | insert index value growing =>
    rw [← Access.insert_follows]
    simp only [edit, ofItems]
    cases Access.insert (items held) index value <;> simp [Except.map, kept]
  | delete index growing =>
    rw [← Access.delete_follows]
    simp only [edit, ofItems]
    cases Access.delete (items held) index <;> simp [Except.map, Prod.map, kept]
  | pop growing =>
    rw [← Access.pop_follows]
    simp only [edit, ofItems]
    cases Access.pop (items held) <;> simp [Except.map, Prod.map, kept]

end Growing

variable {α : Type}

def Growable.operations : Growing α (Growable α) :=
  ⟨get, set, append, insert, delete, pop⟩

def Text.operations : Growing Char Text :=
  ⟨get, set, append, insert, delete, pop⟩

def Fixed.edit (array : Fixed α) : Edit α false → Except Fault (Option α × Fixed α)
  | .get index => (array.get index).map fun value => (some value, array)
  | .set index value => (array.set index value).map fun after => (none, after)

theorem Growable.edit_follows (vector : Growable α) (change : Edit α true) :
    (operations.edit vector change).map (Prod.map id toList) = change.onList vector.toList :=
  Growing.ofItems_follows (fun _ => rfl) vector change

theorem Text.edit_follows (text : Text) (change : Edit Char true) :
    (operations.edit text change).map (Prod.map id toList) = change.onList text.toList :=
  Growing.ofItems_follows (fun _ => rfl) text change

theorem Fixed.edit_follows (array : Fixed α) (change : Edit α false) :
    (array.edit change).map (Prod.map id toList) = change.onList array.toList := by
  cases change with
  | get index =>
    refine Eq.trans ?_ (Access.read_follows array.items index)
    simp only [edit, get]
    cases Access.read array.items index <;> rfl
  | set index value =>
    refine Eq.trans ?_ (Access.write_follows array.items index value)
    simp only [edit, set]
    cases Access.write array.items index value <;> rfl
  | append _ growing | insert _ _ growing | delete _ growing | pop growing => cases growing

/-- The kinds of containers, with the type of the elements where it is not settled. -/
inductive Shape where
  | vector (α : Type)
  | array (α : Type)
  | text

namespace Shape

def Item : Shape → Type
  | vector α | array α => α
  | text => Char

def grows : Shape → Bool
  | vector _ | text => true
  | array _ => false

/-- What a container is made of. -/
def Source : Shape → Type
  | vector α | array α => List α
  | text => String

def Holder : Shape → Type
  | vector α => Growable α
  | array α => Fixed α
  | text => Text

def make : (shape : Shape) → shape.Source → shape.Holder
  | vector _ => Growable.ofList
  | array _ => Fixed.ofList
  | text => Text.ofString

def edit : (shape : Shape) → shape.Holder → Edit shape.Item shape.grows →
    Except Fault (Option shape.Item × shape.Holder)
  | vector _ => Growable.operations.edit
  | array _ => Fixed.edit
  | text => Text.operations.edit

/-- The elements of a container in order. -/
def elements : (shape : Shape) → shape.Holder → List shape.Item
  | vector _ => Growable.toList
  | array _ => Fixed.toList
  | text => Text.toList

/-- The elements of a container when it is made. -/
def initial : (shape : Shape) → shape.Source → List shape.Item
  | vector _ | array _ => id
  | text => String.toList

variable {shape : Shape}

theorem elements_make (source : shape.Source) : shape.elements (shape.make source) = shape.initial source := by
  cases shape <;> exact List.toList_toArray

theorem elements_inj {one other : shape.Holder} : shape.elements one = shape.elements other ↔ one = other := by
  constructor
  · cases shape <;> (obtain ⟨⟨_⟩⟩ := one; obtain ⟨⟨_⟩⟩ := other; rintro ⟨⟩; rfl)
  · rintro rfl
    rfl

/-- Every kind of container answers as the list of its elements does. -/
theorem edit_follows (held : shape.Holder) (change : Edit shape.Item shape.grows) :
    (shape.edit held change).map (Prod.map id shape.elements) = change.onList (shape.elements held) := by
  cases shape with
  | vector α => exact Growable.edit_follows held change
  | array α => exact Fixed.edit_follows held change
  | text => exact Text.edit_follows held change

theorem edit_ok {held : shape.Holder} {change : Edit shape.Item shape.grows} {given : Option shape.Item}
    {items : List shape.Item} (changes : change.onList (shape.elements held) = .ok (given, items)) :
    ∃ after, shape.edit held change = .ok (given, after) ∧ shape.elements after = items := by
  have follows := edit_follows held change
  rw [changes] at follows
  cases edited : shape.edit held change with
  | error fault =>
    rw [edited] at follows
    cases follows
  | ok result =>
    rw [edited] at follows
    obtain ⟨_, after⟩ := result
    cases follows
    exact ⟨after, rfl, rfl⟩

theorem edit_error {held : shape.Holder} {change : Edit shape.Item shape.grows} {fault : Fault}
    (refused : change.onList (shape.elements held) = .error fault) : shape.edit held change = .error fault := by
  have follows := edit_follows held change
  rw [refused] at follows
  cases edited : shape.edit held change with
  | error reported =>
    rw [edited] at follows
    cases follows
    rfl
  | ok result =>
    rw [edited] at follows
    cases follows

/-- What a second operation undoes on the elements it undoes on the container. -/
theorem edit_undone {held : shape.Holder} {change undo : Edit shape.Item shape.grows} {given back : Option shape.Item}
    (goes : ∃ between, change.onList (shape.elements held) = .ok (given, between) ∧
      undo.onList between = .ok (back, shape.elements held)) :
    ∃ between, shape.edit held change = .ok (given, between) ∧ shape.edit between undo = .ok (back, held) := by
  obtain ⟨_, changes, undoes⟩ := goes
  obtain ⟨between, changed, rfl⟩ := edit_ok changes
  obtain ⟨after, undone, restored⟩ := edit_ok undoes
  cases elements_inj.mp restored
  exact ⟨between, changed, undone⟩

end Shape
end Lowering.Container
