import Mathlib.Data.UInt
import Mathlib.Order.Monotone.Basic
import Lowering.Container.Display

/-! Texts and their order. A text is the characters that it is shown as, no more and no less, and texts
are compared by the code points of their characters in turn. UTF-8 keeps this order byte by byte: the
first byte of a character says how many follow, the more the greater it is, and behind it come the digits of
the code point, the highest first. -/

namespace Lowering.Container

namespace Text

/-- Texts are compared like lists of code points. -/
theorem compareChars_eq (first second : List Char) :
    compareChars first second = List.compareLex (compareOn Char.toNat) first second := by
  induction first generalizing second with
  | nil => cases second <;> rfl
  | cons char rest ih =>
    cases second with
    | nil => rfl
    | cons other others =>
      rw [compareChars, ih, List.compareLex_cons_cons]
      rfl

theorem compare_eq (first second : Text) :
    compare first second = List.compareLex (compareOn Char.toNat) first.toList second.toList :=
  compareChars_eq first.toList second.toList

instance : Std.LawfulEqCmp (compareOn Char.toNat) where
  eq_of_compare same := Char.toNat_inj.mp (Std.LawfulEqCmp.eq_of_compare same)

theorem toList_inj {first second : Text} : first.toList = second.toList ↔ first = second := by
  obtain ⟨⟨_⟩⟩ := first
  obtain ⟨⟨_⟩⟩ := second
  simp [toList]

instance : Std.TransOrd Text where
  eq_swap := by
    intro first second
    rw [compare_eq, compare_eq]
    exact Std.OrientedCmp.eq_swap
  isLE_trans := by
    intro first second third
    rw [compare_eq, compare_eq, compare_eq]
    exact Std.TransCmp.isLE_trans

instance : Std.LawfulEqOrd Text where
  compare_self := by
    intro text
    rw [compare_eq]
    exact Std.ReflCmp.compare_self
  eq_of_compare := by
    intro first second same
    rw [compare_eq] at same
    exact toList_inj.mp (Std.LawfulEqCmp.eq_of_compare same)

theorem toList_shown (text : Text) : (Display.text text).toList = text.toList := by
  have alone (char : Char) : char.toString.toList = [char] := String.toList_singleton char
  rw [Display.text, String.toList_join]
  change (text.toList.map Char.toString).flatMap String.toList = text.toList
  rw [List.flatMap_map]
  simp only [alone, List.flatMap_singleton']

theorem shown_ofString (text : String) : Display.text (ofString text) = text :=
  String.toList_inj.mp (toList_shown _)

theorem ofString_shown (text : Text) : ofString (Display.text text) = text :=
  toList_inj.mp (toList_shown text)

theorem shown_inj {first second : Text} : Display.text first = Display.text second ↔ first = second := by
  rw [← String.toList_inj, toList_shown, toList_shown, toList_inj]

/-- A text is less than what it is the beginning of. -/
theorem compare_append {char : Char} {chars rest : List Char} :
    List.compareLex (compareOn Char.toNat) chars (chars ++ char :: rest) = .lt := by
  induction chars with
  | nil => rfl
  | cons first chars ih =>
    have same : compareOn Char.toNat first first = .eq := Std.ReflCmp.compare_self
    rw [List.cons_append, List.compareLex_cons_cons, same]
    exact ih

end Text

namespace Encoding

/-- How many bytes of a character follow its first one. -/
def followers (code : Nat) : Nat :=
  if code ≤ 127 then 0 else if code ≤ 2047 then 1 else if code ≤ 65535 then 2 else 3

/-- What a first byte says of those that follow it. -/
def mark : Nat → Nat
  | 0 => 0
  | 1 => 192
  | 2 => 224
  | _ => 240

/-- The first byte of a character. -/
def lead (code : Nat) : Nat :=
  mark (followers code) + code / 64 ^ followers code

/-- The last digits of a code point to the base of 64, the highest first, as the bytes that follow. -/
def tail (code : Nat) : Nat → List UInt8
  | 0 => []
  | count + 1 => UInt8.ofNat (code / 64 ^ count % 64 + 128) :: tail code count

theorem code_lt (char : Char) : char.toNat < 1114112 := by
  rcases char.valid with low | ⟨_, high⟩
  · exact Nat.lt_trans low (by decide)
  · exact high

theorem followers_cases (code : Nat) :
    code ≤ 127 ∧ followers code = 0 ∨ 127 < code ∧ code ≤ 2047 ∧ followers code = 1 ∨
      2047 < code ∧ code ≤ 65535 ∧ followers code = 2 ∨ 65535 < code ∧ followers code = 3 := by
  unfold followers
  split
  · omega
  split
  · omega
  split <;> omega

theorem encoded (char : Char) :
    String.utf8EncodeChar char = UInt8.ofNat (lead char.toNat) :: tail char.toNat (followers char.toNat) := by
  have limit := code_lt char
  unfold String.utf8EncodeChar lead followers
  simp only [Char.toNat] at limit ⊢
  split
  · simp [mark, tail]
  split
  on_goal 2 => split
  all_goals
    -- What is left of a code point behind its lower digits needs no cutting off.
    simp only [mark, tail, Nat.reducePow, Nat.div_one, List.cons.injEq, and_true]
    congr 1
    omega

variable {one other : Nat}

theorem mark_mono : Monotone mark := by
  refine monotone_nat_of_le_succ fun count => ?_
  match count with
  | 0 | 1 | 2 => decide
  | _ + 3 => exact Nat.le_refl 240

/-- A first byte is less than each that announces more. -/
theorem lead_lt_mark (few : followers one < 3) : lead one < mark (followers one + 1) := by
  rcases followers_cases one with ⟨_, size⟩ | ⟨_, _, size⟩ | ⟨_, _, size⟩ | ⟨_, size⟩
  all_goals
    simp only [lead, size, mark]
    omega

theorem lead_lt (limit : one < 1114112) : lead one < 256 := by
  rcases followers_cases one with ⟨_, size⟩ | ⟨_, _, size⟩ | ⟨_, _, size⟩ | ⟨_, size⟩
  all_goals
    simp only [lead, size, mark]
    omega

/-- More bytes follow only where the code point is greater, and then the first byte is greater, too. -/
theorem lt_of_fewer (fewer : followers one < followers other) : one < other ∧ lead one < lead other := by
  have first := followers_cases one
  have second := followers_cases other
  constructor
  · omega
  · calc
      lead one < mark (followers one + 1) := lead_lt_mark (by omega)
      _ ≤ mark (followers other) := mark_mono fewer
      _ ≤ lead other := Nat.le_add_right _ _

theorem compare_bytes (small : one < 256) (small' : other < 256) :
    compare (UInt8.ofNat one) (UInt8.ofNat other) = compare one other := by
  rw [UInt8.compare_eq_toNat_compare_toNat, UInt8.toNat_ofNat_of_lt' small, UInt8.toNat_ofNat_of_lt' small']

theorem compare_add (one other amount : Nat) : compare (one + amount) (other + amount) = compare one other := by
  rcases Nat.lt_trichotomy one other with less | rfl | greater
  · rw [Nat.compare_eq_lt.mpr less, Nat.compare_eq_lt.mpr (Nat.add_lt_add_right less amount)]
  · simp
  · rw [Nat.compare_eq_gt.mpr greater, Nat.compare_eq_gt.mpr (Nat.add_lt_add_right greater amount)]

/-- Numbers are compared by their higher digits first. -/
theorem compare_divided (one other base : Nat) :
    (compare (one / base) (other / base)).then (compare (one % base) (other % base)) = compare one other := by
  rcases Nat.lt_trichotomy (one / base) (other / base) with less | same | greater
  · rw [Nat.compare_eq_lt.mpr less, Nat.compare_eq_lt.mpr (Nat.lt_of_div_lt_div less)]
    rfl
  · rw [Nat.compare_eq_eq.mpr same, Ordering.eq_then]
    calc
      compare (one % base) (other % base) =
          compare (one % base + base * (other / base)) (other % base + base * (other / base)) := (compare_add ..).symm
      _ = compare one other := by rw [Nat.mod_add_div, ← same, Nat.mod_add_div]
  · rw [Nat.compare_eq_gt.mpr greater, Nat.compare_eq_gt.mpr (Nat.lt_of_div_lt_div greater)]
    rfl

theorem compare_tail (one other count : Nat) (rest others : List UInt8) :
    List.compareLex compare (tail one count ++ rest) (tail other count ++ others) =
      (compare (one % 64 ^ count) (other % 64 ^ count)).then (List.compareLex compare rest others) := by
  induction count with
  | zero => simp [tail, Nat.mod_one]
  | succ count ih =>
    have small (code : Nat) : code / 64 ^ count % 64 + 128 < 256 := by omega
    rw [tail, tail, List.cons_append, List.cons_append, List.compareLex_cons_cons, ih,
      compare_bytes (small one) (small other), compare_add, ← Ordering.then_assoc]
    rw [← compare_divided (one % 64 ^ (count + 1)) (other % 64 ^ (count + 1)) (64 ^ count), Nat.pow_succ]
    simp only [Nat.mod_mul_right_div_self, Nat.mod_mul_right_mod]

theorem compare_encoded (one other : Char) (rest others : List UInt8) :
    List.compareLex compare (String.utf8EncodeChar one ++ rest) (String.utf8EncodeChar other ++ others) =
      (compareOn Char.toNat one other).then (List.compareLex compare rest others) := by
  rw [encoded, encoded, List.cons_append, List.cons_append, List.compareLex_cons_cons,
    compare_bytes (lead_lt (code_lt one)) (lead_lt (code_lt other)), compareOn]
  rcases Nat.lt_trichotomy (followers one.toNat) (followers other.toNat) with fewer | same | more
  · obtain ⟨less, leads⟩ := lt_of_fewer fewer
    rw [Nat.compare_eq_lt.mpr leads, Nat.compare_eq_lt.mpr less]
    rfl
  · rw [lead, lead, same, Nat.add_comm, Nat.add_comm (mark _), compare_add, compare_tail, ← Ordering.then_assoc,
      compare_divided]
  · obtain ⟨less, leads⟩ := lt_of_fewer more
    rw [Nat.compare_eq_gt.mpr leads, Nat.compare_eq_gt.mpr less]
    rfl

theorem compare_utf8 (first second : List Char) :
    List.compareLex compare (first.flatMap String.utf8EncodeChar) (second.flatMap String.utf8EncodeChar) =
      List.compareLex (compareOn Char.toNat) first second := by
  induction first generalizing second with
  | nil =>
    cases second with
    | nil => rfl
    | cons other others => rw [List.flatMap_cons, encoded]; rfl
  | cons one rest ih =>
    cases second with
    | nil => rw [List.flatMap_cons, encoded]; rfl
    | cons other others => rw [List.flatMap_cons, List.flatMap_cons, compare_encoded, ih, List.compareLex_cons_cons]

end Encoding

namespace Text

theorem bytes_shown (text : Text) :
    (Display.text text).toUTF8.data.toList = text.toList.flatMap String.utf8EncodeChar := by
  rw [String.toUTF8_eq_toByteArray, ← String.ofList_toList (s := Display.text text), toList_shown,
    String.toByteArray_ofList, List.utf8Encode, List.toList_data_toByteArray]

/-- A text is what it is shown as, in its order, too. It is shown as the characters that it was made of, has as
many elements as these, and is had back from what it is shown as. Texts are in a total order, in which only
equal ones are equal, a text comes before every longer one that it begins, and the bytes of UTF-8 decide
as the characters do. -/
theorem ordered_as_shown :
    (∀ shown : String, Display.text (ofString shown) = shown ∧ (ofString shown).length = shown.length) ∧
    (∀ text : Text, ofString (Display.text text) = text) ∧
    (∀ one other : Text, (compare one other).isLE ∨ (compare other one).isLE) ∧
    (∀ one other : Text, compare one other = (compare other one).swap) ∧
    (∀ one two three : Text, (compare one two).isLE → (compare two three).isLE → (compare one three).isLE) ∧
    (∀ one other : Text, compare one other = .eq ↔ Display.text one = Display.text other) ∧
    (∀ (one other : Text) (more : String), more ≠ "" → Display.text other = Display.text one ++ more →
      compare one other = .lt) ∧
    ∀ one other : Text, compare one other =
      compare (Display.text one).toUTF8.data.toList (Display.text other).toUTF8.data.toList := by
  refine ⟨fun shown => ⟨shown_ofString shown, ?_⟩, ofString_shown, ?_, ?_, ?_, ?_, ?_, ?_⟩
  · simp [length, ofString, String.length_toList]
  · intro one other
    have swapped : compare other one = (compare one other).swap := Std.OrientedCmp.eq_swap
    rw [swapped]
    cases compare one other <;> decide
  · exact fun one other => Std.OrientedCmp.eq_swap
  · exact fun one two three => Std.TransCmp.isLE_trans
  · intro one other
    rw [shown_inj]
    exact Std.LawfulEqCmp.compare_eq_iff_eq
  · intro one other more added longer
    have chars := congrArg String.toList longer
    rw [toList_shown, String.toList_append, toList_shown] at chars
    obtain ⟨char, others, same⟩ := List.exists_cons_of_ne_nil (mt String.toList_eq_nil_iff.mp added)
    rw [compare_eq, chars, same]
    exact compare_append
  · intro one other
    rw [bytes_shown, bytes_shown, List.compare_eq_compareLex, Encoding.compare_utf8, compare_eq]

theorem beginning_first :
    compare (ofString "né") (ofString "née") = .lt ∧
      compare (Display.text (ofString "né")).toUTF8.data.toList
        (Display.text (ofString "née")).toUTF8.data.toList = .lt := by
  obtain ⟨shown, _, _, _, _, _, longer, bytes⟩ := ordered_as_shown
  have less : compare (ofString "né") (ofString "née") = .lt :=
    longer _ _ "e" (by decide) ((shown "née").1.trans (congrArg (· ++ "e") (shown "né").1.symm))
  exact ⟨less, bytes _ _ ▸ less⟩

end Text

end Lowering.Container
