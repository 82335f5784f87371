import Mathlib
import Lowering.Container.Display

/-! What the text of a container tells. The text of a whole number ends where no digit follows, and that of a
container ends with its own bracket, so the elements of a container can be read off its text one by one,
however deep containers stand within each other. -/

namespace Lowering.Container

namespace Display

variable {α : Type} [Display α]

theorem join_single (piece : String) : String.join [piece] = piece := by
  simp

theorem join_separated (items : List α) :
    String.join (separated items) = ", ".intercalate (items.map text) := by
  fun_induction separated items with
  | case1 => rfl
  | case2 item => simp [text]
  | case3 item rest some ih =>
    obtain ⟨next, others, rfl⟩ := List.exists_cons_of_ne_nil some
    rw [String.join_append, String.join_cons, ih]
    simp [text, String.append_assoc]

theorem join_bracketed (items : List α) :
    String.join (bracketed items) = "[" ++ ", ".intercalate (items.map text) ++ "]" := by
  rw [bracketed, List.cons_append, String.join_cons, String.join_append, join_separated]
  simp [String.append_assoc]

/-- The characters of which whole numbers are written. -/
def isNumeric (char : Char) : Bool :=
  char.isDigit || char == '-'

/-- No whole number goes on here. -/
def Ends (rest : List Char) : Prop :=
  ∀ char ∈ rest.head?, isNumeric char = false

theorem numeric_repr (number : Int) :
    number.repr.toList ≠ [] ∧ ∀ char ∈ number.repr.toList, isNumeric char = true := by
  have natural (size : Nat) : size.repr.toList ≠ [] ∧ ∀ char ∈ size.repr.toList, isNumeric char = true := by
    rw [Nat.toList_repr]
    refine ⟨Nat.toDigits_ne_nil, fun char member => ?_⟩
    have digit := Nat.isDigit_of_mem_toDigits (by decide) (by decide) member
    simp [isNumeric, digit]
  cases number with
  | ofNat size => exact natural size
  | negSucc size =>
    obtain ⟨_, digits⟩ := natural (size + 1)
    have signed : (Int.negSucc size).repr.toList = '-' :: (size + 1).repr.toList := String.toList_append
    rw [signed]
    exact ⟨List.cons_ne_nil _ _, List.forall_mem_cons.mpr ⟨rfl, digits⟩⟩

/-- A run of characters of some kind is as long as it can be where another kind follows. -/
theorem run_inj {among : Char → Bool} {first second rest others : List Char}
    (all : ∀ char ∈ first, among char = true) (all' : ∀ char ∈ second, among char = true)
    (stops : ∀ char ∈ rest.head?, among char = false) (stops' : ∀ char ∈ others.head?, among char = false)
    (same : first ++ rest = second ++ others) : first = second ∧ rest = others := by
  have nothing {behind : List Char} (stops : ∀ char ∈ behind.head?, among char = false) :
      behind.takeWhile among = [] := by
    cases behind with
    | nil => rfl
    | cons char behind => simp [stops char rfl]
  have runs := congrArg (List.takeWhile among) same
  rw [List.takeWhile_append_of_pos all, List.takeWhile_append_of_pos all', nothing stops, nothing stops',
    List.append_nil, List.append_nil] at runs
  subst runs
  exact ⟨rfl, List.append_cancel_left same⟩

/-- The text of a value tells where it ends and which value it is of, and it does not begin like
the end of a container. -/
structure Legible (α : Type) [Display α] : Prop where
  opens : ∀ value : α, ∃ first ∈ (text value).toList.head?, first ≠ ']'
  cancels : ∀ (one other : α) (rest others : List Char), Ends rest → Ends others →
    (text one).toList ++ rest = (text other).toList ++ others → one = other ∧ rest = others

/-- Whole numbers of all sizes are legible. -/
theorem Legible.of_repr (number : α → Int) (injective : ∀ one other, number one = number other → one = other)
    (shown : ∀ value, text value = (number value).repr) : Legible α where
  opens := by
    intro value
    obtain ⟨some, numeric⟩ := numeric_repr (number value)
    obtain ⟨first, rest, same⟩ := List.exists_cons_of_ne_nil some
    rw [shown, same]
    refine ⟨first, rfl, ?_⟩
    rintro rfl
    cases numeric _ (same ▸ List.mem_cons_self)
  cancels := by
    intro one other rest others ends ends' same
    rw [shown, shown] at same
    obtain ⟨texts, behind⟩ := run_inj (numeric_repr _).2 (numeric_repr _).2 ends ends' same
    exact ⟨injective _ _ (Int.repr_inj.mp (String.toList_inj.mp texts)), behind⟩

/-- What stands behind an element where these elements follow it. -/
def behind : List α → List Char → List Char
  | [], rest => ']' :: rest
  | item :: items, rest => ',' :: ' ' :: ((text item).toList ++ behind items rest)

/-- What stands behind the opening bracket of a container with these elements. -/
def inside : List α → List Char → List Char
  | [], rest => ']' :: rest
  | item :: items, rest => (text item).toList ++ behind items rest

theorem inside_eq (items : List α) (rest : List Char) :
    (", ".intercalate (items.map text)).toList ++ ']' :: rest = inside items rest := by
  cases items with
  | nil => rfl
  | cons item items =>
    induction items generalizing item with
    | nil => simp [inside, behind]
    | cons next items ih =>
      have later := ih next
      simp only [List.map_cons, String.intercalate_cons_cons, String.toList_append, List.append_assoc] at later ⊢
      rw [later]
      rfl

theorem behind_ends (items : List α) (rest : List Char) : Ends (behind items rest) := by
  cases items <;> simp [Ends, behind, isNumeric]

namespace Legible

variable {one other : List α} {rest others : List Char}

/-- Whether another element follows shows at once, and each element that does tells where it ends. -/
theorem behind_inj (legible : Legible α) (same : behind one rest = behind other others) :
    one = other ∧ rest = others := by
  induction one generalizing other with
  | nil =>
    cases other with
    | nil => exact ⟨rfl, List.tail_eq_of_cons_eq same⟩
    | cons => simp [behind] at same
  | cons item items ih =>
    cases other with
    | nil => simp [behind] at same
    | cons item' items' =>
      have texts := List.tail_eq_of_cons_eq (List.tail_eq_of_cons_eq same)
      obtain ⟨rfl, later⟩ := legible.cancels _ _ _ _ (behind_ends _ _) (behind_ends _ _) texts
      obtain ⟨rfl, rfl⟩ := ih later
      exact ⟨rfl, rfl⟩

/-- The first element cannot be taken for the end of the container. -/
theorem inside_ne_nil (legible : Legible α) (item : α) (items : List α) :
    inside (item :: items) rest ≠ ']' :: others := by
  intro equal
  obtain ⟨first, opens, apart⟩ := legible.opens item
  have heads := congrArg List.head? equal
  rw [inside, List.head?_append, Option.mem_def.mp opens] at heads
  exact apart (Option.some.inj heads)

theorem inside_inj (legible : Legible α) (same : inside one rest = inside other others) :
    one = other ∧ rest = others := by
  cases one with
  | nil =>
    cases other with
    | nil => exact ⟨rfl, List.tail_eq_of_cons_eq same⟩
    | cons item items => exact absurd same.symm (legible.inside_ne_nil item items)
  | cons item items =>
    cases other with
    | nil => exact absurd same (legible.inside_ne_nil item items)
    | cons item' items' =>
      obtain ⟨rfl, later⟩ := legible.cancels _ _ _ _ (behind_ends _ _) (behind_ends _ _) same
      obtain ⟨rfl, rfl⟩ := legible.behind_inj later
      exact ⟨rfl, rfl⟩

/-- A container is legible where its elements are. -/
theorem bracketed (legible : Legible α) {γ : Type} [Display γ] (elements : γ → List α)
    (injective : ∀ one other, elements one = elements other → one = other)
    (shown : ∀ value, text value = "[" ++ ", ".intercalate ((elements value).map text) ++ "]") : Legible γ where
  opens := by
    intro value
    rw [shown]
    exact ⟨'[', by simp, by decide⟩
  cancels := by
    intro one other rest others _ _ same
    have written (value : γ) (rest : List Char) :
        (text value).toList ++ rest = '[' :: inside (elements value) rest := by
      rw [← inside_eq, shown]
      simp
    rw [written, written] at same
    obtain ⟨items, behind⟩ := legible.inside_inj (List.tail_eq_of_cons_eq same)
    exact ⟨injective _ _ items, behind⟩

end Legible
end Display

open Display

/-- The whole numbers that containers may hold. -/
inductive Whole where
  | int64
  | uint64
  | int8
  | uint8
deriving DecidableEq, Repr

/-- Whole numbers of one size, in containers within containers. -/
inductive Nesting where
  | numbers (whole : Whole)
  | vectors (inner : Nesting)
  | arrays (inner : Nesting)
deriving DecidableEq, Repr

namespace Nesting

def Value : Nesting → Type
  | numbers .int64 => Int64
  | numbers .uint64 => UInt64
  | numbers .int8 => Int8
  | numbers .uint8 => UInt8
  | vectors inner => Growable inner.Value
  | arrays inner => Fixed inner.Value

/-- Every value is shown as its type is. -/
@[reducible]
def display : (nesting : Nesting) → Display nesting.Value
  | numbers .int64 => inferInstanceAs (Display Int64)
  | numbers .uint64 => inferInstanceAs (Display UInt64)
  | numbers .int8 => inferInstanceAs (Display Int8)
  | numbers .uint8 => inferInstanceAs (Display UInt8)
  | vectors inner => have := inner.display; inferInstanceAs (Display (Growable inner.Value))
  | arrays inner => have := inner.display; inferInstanceAs (Display (Fixed inner.Value))

instance (nesting : Nesting) : Display nesting.Value :=
  nesting.display

theorem legible : (nesting : Nesting) → Legible nesting.Value
  | numbers .int64 =>
    .of_repr Int64.toInt (fun _ _ same => Int64.toInt_inj.mp same) fun _ => join_single _
  | numbers .uint64 =>
    .of_repr (fun value : UInt64 => (value.toNat : Int))
      (fun _ _ same => UInt64.toNat_inj.mp (Int.ofNat_inj.mp same)) fun _ => join_single _
  | numbers .int8 =>
    .of_repr Int8.toInt (fun _ _ same => Int8.toInt_inj.mp same) fun _ => join_single _
  | numbers .uint8 =>
    .of_repr (fun value : UInt8 => (value.toNat : Int))
      (fun _ _ same => UInt8.toNat_inj.mp (Int.ofNat_inj.mp same)) fun _ => join_single _
  | vectors inner =>
    inner.legible.bracketed Growable.toList (fun ⟨_⟩ ⟨_⟩ same => congrArg _ (Array.toList_inj.mp same))
      fun vector => join_bracketed vector.toList
  | arrays inner =>
    inner.legible.bracketed Fixed.toList (fun ⟨_⟩ ⟨_⟩ same => congrArg _ (Array.toList_inj.mp same))
      fun array => join_bracketed array.toList

/-- The text of a container can be read back. A container is shown as the texts of its elements between
brackets, with commas between them. However deep containers stand within each other, two values of one
type are shown alike only if they are the same: the text tells how many elements there are on every
level, in which order, and which number each one is. -/
theorem shown_apart (nesting : Nesting) :
    (∀ items : List nesting.Value,
      text (Growable.ofList items) = "[" ++ ", ".intercalate (items.map text) ++ "]" ∧
      text (Fixed.ofList items) = "[" ++ ", ".intercalate (items.map text) ++ "]") ∧
    ∀ one other : nesting.Value, text one = text other ↔ one = other := by
  refine ⟨fun items => ⟨join_bracketed items, join_bracketed items⟩, fun one other => ⟨fun same => ?_, congrArg text⟩⟩
  have ends : Ends [] := fun _ member => nomatch member
  exact (nesting.legible.cancels one other [] [] ends ends (by rw [same])).1

example :
    text (Growable.ofList [Fixed.ofList [(-1 : Int8), 12], Fixed.ofList []]) = "[[-1, 12], []]" := by
  decide

end Nesting

end Lowering.Container
