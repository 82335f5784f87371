import Mathlib.Logic.Function.Basic
import Lowering.Proofs.ContainerEdits

/-! Whole histories of containers. Any number of containers are made, duplicated and operated on in
any order, and each holds the elements that a list holds which goes through the same, up to where
the program ends. -/

namespace Lowering.Container

/-- Something that stands for the containers of every kind. -/
structure Representation where
  Holder : Shape → Type
  make (shape : Shape) : shape.Source → Holder shape
  edit (shape : Shape) : Holder shape → Edit shape.Item shape.grows → Except Fault (Option shape.Item × Holder shape)

namespace Representation

abbrev containers : Representation :=
  ⟨Shape.Holder, Shape.make, Shape.edit⟩

/-- Plain lists of the elements, to compare with. -/
abbrev lists : Representation :=
  ⟨fun shape => List shape.Item, Shape.initial, fun _ => Edit.onList⟩

end Representation

/-- The two forms of an operation, of which the second ends the program where the first reports a
fault. Access in brackets has the second form. -/
inductive Form where
  | reporting
  | fatal

variable {Name : Type} {shape : Name → Shape}

/-- The containers that a program has under some names. -/
abbrev Store (kept : Representation) (shape : Name → Shape) : Type :=
  (name : Name) → kept.Holder (shape name)

/-- The containers with another one under a name. -/
def Store.set [DecidableEq Name] {kept : Representation} (store : Store kept shape) (name : Name)
    (after : kept.Holder (shape name)) : Store kept shape :=
  Function.update store name after

/-- What a program does with its containers. -/
inductive Call (shape : Name → Shape) where
  | make (name : Name) (source : (shape name).Source)
  | clone (name original : Name) (same : shape original = shape name)
  | edit (name : Name) (form : Form) (change : Edit (shape name).Item (shape name).grows)

inductive Reply (shape : Name → Shape) where
  | done
  | answered (name : Name) (given : Option (shape name).Item)
  | refused (fault : Fault)
  | halted (halt : Halt)

/-- What comes of a fault. -/
def Form.reply : Form → Fault → Reply shape
  | reporting, fault => .refused fault
  | fatal, fault => .halted fault.halt

namespace Call

/-- The name whose container a call makes or operates on. -/
def target : Call shape → Name
  | make name _ | clone name _ _ | edit name _ _ => name

/-- The call operates on a container that is there before. -/
def isEdit : Call shape → Bool
  | edit _ _ _ => true
  | make _ _ | clone _ _ _ => false

variable [DecidableEq Name] {kept : Representation}

def run (call : Call shape) (store : Store kept shape) : Store kept shape × Reply shape :=
  match call with
  | make name source => (store.set name (kept.make _ source), .done)
  | clone name original same => (store.set name (same ▸ store original), .done)
  | edit name .reporting change =>
    match kept.edit _ (store name) change with
    | .ok (given, after) => (store.set name after, .answered name given)
    | .error fault => (store, .refused fault)
  | edit name .fatal change =>
    match Container.fatal (kept.edit _ (store name) change) with
    | .ok (given, after) => (store.set name after, .answered name given)
    | .error halt => (store, .halted halt)

end Call

/-- Calls in turn, up to the one that ends the program. -/
def Store.run [DecidableEq Name] {kept : Representation} (store : Store kept shape) :
    List (Call shape) → Store kept shape × List (Reply shape)
  | [] => (store, [])
  | call :: rest =>
    match call.run store with
    | (after, .halted halt) => (after, [.halted halt])
    | (after, reply) => (after.run rest).map id (reply :: ·)

/-- The elements of all containers. -/
def Store.elements (store : Store .containers shape) : Store .lists shape :=
  fun name => (shape name).elements (store name)

section Histories

variable [DecidableEq Name] {kept : Representation}

namespace Store

theorem set_same (store : Store kept shape) (name : Name) (after : kept.Holder (shape name)) :
    store.set name after name = after :=
  Function.update_self ..

theorem set_other (store : Store kept shape) {name other : Name} (apart : other ≠ name)
    (after : kept.Holder (shape name)) : store.set name after other = store other :=
  Function.update_of_ne apart ..

theorem set_back (store : Store kept shape) (name : Name) (between : kept.Holder (shape name)) :
    (store.set name between).set name (store name) = store := by
  simp [set]

theorem elements_set (store : Store .containers shape) (name : Name) (after : (shape name).Holder) :
    (store.set name after).elements = store.elements.set name ((shape name).elements after) := by
  funext other
  exact Function.apply_update (fun name => (shape name).elements) store name after other

end Store

namespace Call

variable {name : Name} {change : Edit (shape name).Item (shape name).grows}

theorem run_edit_ok {store : Store kept shape} {given : Option (shape name).Item} {after : kept.Holder (shape name)}
    (edited : kept.edit _ (store name) change = .ok (given, after)) (form : Form) :
    (edit name form change).run store = (store.set name after, .answered name given) := by
  cases form <;> simp only [run, edited, fatal, Except.mapError]

theorem run_edit_error {store : Store kept shape} {fault : Fault}
    (refused : kept.edit _ (store name) change = .error fault) (form : Form) :
    (edit name form change).run store = (store, form.reply fault) := by
  cases form <;> simp only [run, refused, fatal, Except.mapError, Form.reply]

theorem run_other {call : Call shape} (other : call.target ≠ name) (store : Store kept shape) :
    (call.run store).1 name = store name := by
  cases call with
  | make | clone => exact store.set_other other.symm _
  | edit target form change =>
    cases edited : kept.edit _ (store target) change with
    | ok result =>
      rw [run_edit_ok edited]
      exact store.set_other other.symm _
    | error fault => rw [run_edit_error edited]

/-- Only a container that grows changes its length. -/
theorem run_length {call : Call shape} (fixed : (shape name).grows = false)
    (remains : call.isEdit = true ∨ call.target ≠ name) (store : Store .lists shape) :
    ((call.run store).1 name).length = (store name).length := by
  by_cases here : call.target = name
  · cases call with
    | make | clone => simp [isEdit, here] at remains
    | edit target form change =>
      obtain rfl : target = name := here
      cases edited : change.onList (store target) with
      | ok result =>
        rw [run_edit_ok edited, ← Edit.length_left fixed (store target) change, (Edit.onList_ok.mp edited).2.2]
        exact congrArg List.length (store.set_same target _)
      | error fault => rw [run_edit_error edited]
  · rw [run_other here]

private theorem elements_cast {one other : Shape} (same : one = other) (held : Representation.containers.Holder one) :
    other.elements (same ▸ held) = (same ▸ one.elements held : Representation.lists.Holder other) := by
  cases same
  rfl

theorem run_follows (call : Call shape) (store : Store .containers shape) :
    (call.run store).map Store.elements id = call.run store.elements := by
  cases call with
  | make name source =>
    refine Prod.ext ((store.elements_set name _).trans ?_) rfl
    exact congrArg (store.elements.set name) (Shape.elements_make source)
  | clone name original same =>
    refine Prod.ext ((store.elements_set name _).trans ?_) rfl
    exact congrArg (store.elements.set name) (elements_cast same (store original))
  | edit name form change =>
    cases followed : change.onList (store.elements name) with
    | ok result =>
      obtain ⟨given, items⟩ := result
      obtain ⟨after, edited, rfl⟩ := Shape.edit_ok followed
      rw [run_edit_ok edited, run_edit_ok followed]
      exact Prod.ext (store.elements_set name after) rfl
    | error fault =>
      rw [run_edit_error (Shape.edit_error followed), run_edit_error followed]
      rfl

end Call

namespace Store

/-- Containers hold what lists hold that go through the same, and the program gets the same replies. -/
theorem run_follows (calls : List (Call shape)) (store : Store .containers shape) :
    (store.run calls).map elements id = store.elements.run calls := by
  induction calls generalizing store with
  | nil => rfl
  | cons call rest ih =>
    have first := call.run_follows store
    cases ran : call.run store with
    | mk after reply =>
      rw [ran] at first
      simp only [run, ran, ← first, Prod.map]
      cases reply with
      | halted halt => rfl
      | _ =>
        simp only [id, ← ih after]
        rfl

/-- What every call keeps, a history keeps. -/
theorem run_keeps {holds : Store kept shape → Prop} {calls : List (Call shape)}
    (each : ∀ call ∈ calls, ∀ before, holds before → holds (call.run before).1) {store : Store kept shape}
    (first : holds store) : holds (store.run calls).1 := by
  induction calls generalizing store with
  | nil => exact first
  | cons call rest ih =>
    have next := each call List.mem_cons_self store first
    have later := ih (fun call member => each call (List.mem_cons_of_mem _ member)) next
    cases ran : call.run store with
    | mk after reply =>
      rw [ran] at next later
      simp only [run, ran]
      cases reply with
      | halted halt => exact next
      | _ => exact later

theorem run_other {calls : List (Call shape)} {name : Name} (apart : ∀ call ∈ calls, call.target ≠ name)
    (store : Store kept shape) : (store.run calls).1 name = store name :=
  run_keeps (fun call member before same => (Call.run_other (apart call member) before).trans same) rfl

theorem run_length {calls : List (Call shape)} {name : Name} (fixed : (shape name).grows = false)
    (remains : ∀ call ∈ calls, call.isEdit = true ∨ call.target ≠ name) (store : Store .containers shape) :
    ((store.run calls).1.elements name).length = (store.elements name).length := by
  have followed := congrArg Prod.fst (run_follows calls store)
  simp only [Prod.map] at followed
  rw [followed]
  exact run_keeps (fun call member before same => (Call.run_length fixed (remains call member) before).trans same) rfl

/-- An operation and another that undoes it. -/
theorem run_back {name : Name} {change undo : Edit (shape name).Item (shape name).grows}
    {given back : Option (shape name).Item} {store : Store kept shape} {between : kept.Holder (shape name)}
    (changed : kept.edit _ (store name) change = .ok (given, between))
    (undone : kept.edit _ between undo = .ok (back, store name)) (first last : Form) :
    store.run [.edit name first change, .edit name last undo] =
      (store, [.answered name given, .answered name back]) := by
  rw [← store.set_same name between] at undone
  simp [run, Call.run_edit_ok changed, Call.run_edit_ok undone, set_back]

variable {name : Name} (growing : (shape name).grows = true) {store : Store .containers shape} {index : Nat}

theorem run_insert_delete (inside : index ≤ (store.elements name).length) (value : (shape name).Item) (first last : Form) :
    store.run [.edit name first (.insert index value growing), .edit name last (.delete index growing)] =
      (store, [.answered name none, .answered name (some value)]) := by
  obtain ⟨between, inserted, deleted⟩ := Shape.edit_undone (Edit.insert_delete growing inside value)
  exact run_back inserted deleted first last

theorem run_delete_insert (inside : index < (store.elements name).length) (first last : Form) :
    let value := (store.elements name)[index]
    store.run [.edit name first (.delete index growing), .edit name last (.insert index value growing)] =
      (store, [.answered name (some value), .answered name none]) := by
  obtain ⟨between, deleted, inserted⟩ := Shape.edit_undone (Edit.delete_insert growing inside)
  exact run_back deleted inserted first last

end Store

/-- Containers over whole histories. A program that makes, duplicates and operates on any number of
containers holds in each of them what a list holds that goes through the same. Each operation is
answered, or refused and leaves everything as it was; its fatal form ends the program where it is
refused. What is inserted and taken out again, or taken out and put back, leaves no trace. Arrays keep
their length, and a container that is not named keeps what it holds. -/
theorem histories_follow_lists (shape : Name → Shape) (store : Store .containers shape) :
    (∀ calls, (store.run calls).map Store.elements id = store.elements.run calls) ∧
    (∀ name (change : Edit (shape name).Item (shape name).grows),
      match change.refusal (store.elements name).length with
      | none => ∃ after, (shape name).elements after = change.left (store.elements name) ∧ ∀ form,
        (Call.edit name form change).run store =
          (store.set name after, .answered name (change.given (store.elements name)))
      | some fault => (Call.edit name .reporting change).run store = (store, .refused fault) ∧
        (Call.edit name .fatal change).run store = (store, .halted ⟨"< Exception: " ++ fault.message ++ " >"⟩)) ∧
    (∀ name growing index value first last, index ≤ (store.elements name).length →
      store.run [.edit name first (.insert index value growing), .edit name last (.delete index growing)] =
        (store, [.answered name none, .answered name (some value)])) ∧
    (∀ name growing index first last, (inside : index < (store.elements name).length) →
      let value := (store.elements name)[index]
      store.run [.edit name first (.delete index growing), .edit name last (.insert index value growing)] =
        (store, [.answered name (some value), .answered name none])) ∧
    (∀ calls name, (shape name).grows = false → (∀ call ∈ calls, call.isEdit = true ∨ call.target ≠ name) →
      ((store.run calls).1.elements name).length = (store.elements name).length) ∧
    ∀ calls name, (∀ call ∈ calls, call.target ≠ name) → (store.run calls).1 name = store name := by
  refine ⟨fun calls => store.run_follows calls, fun name change => ?_, ?_, ?_, ?_, ?_⟩
  · cases decided : change.refusal (store.elements name).length with
    | none =>
      obtain ⟨after, edited, left⟩ := Shape.edit_ok (Edit.onList_ok.mpr ⟨decided, rfl, rfl⟩)
      exact ⟨after, left, Call.run_edit_ok edited⟩
    | some fault =>
      have refused := Shape.edit_error (Edit.onList_error.mpr decided)
      exact ⟨Call.run_edit_error refused .reporting, Call.run_edit_error refused .fatal⟩
  · exact fun _ growing _ value first last inside => Store.run_insert_delete growing inside value first last
  · exact fun _ growing _ first last inside => Store.run_delete_insert growing inside first last
  · exact fun _ _ fixed remains => Store.run_length fixed remains store
  · exact fun _ _ apart => Store.run_other apart store

end Histories

section Sample

/-- A vector and an array. -/
private def shapes : Bool → Shape
  | false => .vector Nat
  | true => .array Nat

private def held : Store .containers shapes
  | false => Growable.ofList [1, 2]
  | true => Fixed.ofList [5]

/-- The vector grows, the array takes a new element, and then a position is asked for that it does not
have. -/
private def history : List (Call shapes) :=
  [.edit false .reporting (.append (3 : Nat) rfl), .edit true .fatal (.set 0 (7 : Nat)), .edit true .fatal (.get 1)]

theorem sample_follows_lists :
    (held.run history).1.elements false = ([1, 2, 3] : List Nat) ∧ ((held.run history).1.elements true).length = 1 ∧
    (Call.edit true .fatal (.get 1)).run held =
      (held, .halted ⟨"< Exception: index out of bounds: index 1 but length is 1 >"⟩) ∧
    held.run [.edit false .reporting (.insert 2 (3 : Nat) rfl), .edit false .fatal (.delete 2 rfl)] =
      (held, [.answered false none, .answered false (some (3 : Nat))]) ∧
    held.run [.edit false .fatal (.delete 1 rfl), .edit false .reporting (.insert 1 (2 : Nat) rfl)] =
      (held, [.answered false (some (2 : Nat)), .answered false none]) ∧
    (held.run [.edit false .fatal (.pop rfl)]).1 true = held true := by
  obtain ⟨follows, decided, undone, restored, lengths, others⟩ := histories_follow_lists shapes held
  refine ⟨?_, lengths history true rfl ?_, (decided true (.get 1)).2, undone false rfl 2 (3 : Nat) _ _ (by decide),
    restored false rfl 1 _ _ (by decide), others _ true ?_⟩
  · exact congrFun (congrArg Prod.fst (follows history)) false
  · simp [history, Call.isEdit]
  · simp [Call.target]

end Sample

end Lowering.Container
