import Mathlib
import Lowering.Proofs.Indentation

/-! Laws of indentation. Distances add up, a text can be cut where a line begins and indented in pieces, and
since no line is lost, added or made bare, what was indented can be set back. -/

namespace Lowering.Layout

variable {levels : Nat} {text : List Char}

section Moving

theorem count_shift (levels : Nat) (fresh : Bool) (text : List Char) :
    (shift levels fresh text).count '\n' = text.count '\n' := by
  induction text generalizing fresh with
  | nil => rfl
  | cons char rest ih =>
    by_cases newline : char = '\n'
    · subst newline
      rw [shift_break, List.count_cons, List.count_cons, ih]
    · have spaces : (if fresh then pad levels else []).count '\n' = 0 := by
        cases fresh with
        | false => rfl
        | true => exact List.count_eq_zero.mpr (not_mem_pad levels)
      rw [shift_inside newline, List.count_append, spaces, Nat.zero_add, List.count_cons, List.count_cons, ih]

/-- A text is indented alike inside a line and at its beginning only if it has nothing there to be moved. -/
theorem shift_inside_iff :
    shift levels false text = shift levels true text ↔ levels = 0 ∨ text = [] ∨ text.head? = some '\n' := by
  cases text with
  | nil => simp
  | cons char rest =>
    by_cases newline : char = '\n'
    · subst newline
      simp
    · rw [shift_inside newline, shift_inside newline, if_pos rfl]
      simp [pad, newline]

/-- A line begins behind a text that is empty or ends in a line break. -/
theorem breaks_iff : breaks true text = true ↔ text = [] ∨ text.getLast? = some '\n' := by
  rw [breaks, ← List.getLast?_eq_none_iff]
  cases text.getLast? <;> simp

end Moving

section Texts

theorem indent_indent (first last : Nat) (text : String) : indent first (indent last text) = indent (first + last) text := by
  rw [← String.toList_inj, toList_indent, toList_indent, toList_indent, shift_shift]

theorem indent_append_iff (levels : Nat) (first last : String) :
    indent levels (first ++ last) = indent levels first ++ indent levels last ↔
      breaks true first.toList = true ∨ levels = 0 ∨ last.toList = [] ∨ last.toList.head? = some '\n' := by
  rw [← String.toList_inj, String.toList_append, toList_indent, toList_indent, toList_indent, String.toList_append,
    shift_append, List.append_cancel_left_eq]
  cases breaks true first.toList with
  | true => exact iff_of_true rfl (.inl rfl)
  | false => rw [shift_inside_iff, or_iff_right Bool.false_ne_true]

theorem outdent?_toList (levels : Nat) (text : String) : outdent? levels (indent levels text).toList = some text.toList := by
  rw [indent, String.toList_ofList, outdent?_indent]

theorem indent_injective (levels : Nat) : Function.Injective (indent levels) := by
  intro one other same
  have back := outdent?_toList levels one
  rw [same, outdent?_toList] at back
  exact String.toList_injective (Option.some.inj back).symm

theorem lines_indent (levels : Nat) (text : String) :
    lines (indent levels text).toList = (lines text.toList).map (indentLine levels) := by
  rw [indent, String.toList_ofList, lines_indentChars]

end Texts

/-- The laws of indentation. To indent a text twice is to indent it once by the sum. Two texts can be indented
one by one if the first is empty or ends in a line break, and otherwise only where nothing would have to be
moved at the seam. Taking the spaces of so many levels from every line but a bare line break gives the text
back, so no two texts are indented to one. No line break is lost or added: each line is indented in its place,
and it is a bare line break exactly if it was one. -/
theorem indentation_laws (levels : Nat) (text : String) :
    (∀ more, indent more (indent levels text) = indent (levels + more) text) ∧
    (∀ later, indent levels (text ++ later) = indent levels text ++ indent levels later ↔
      text = "" ∨ text.toList.getLast? = some '\n' ∨ levels = 0 ∨ later = "" ∨ later.toList.head? = some '\n') ∧
    outdent? levels (indent levels text).toList = some text.toList ∧
    Function.Injective (indent levels) ∧
    (indent levels text).toList.count '\n' = text.toList.count '\n' ∧
    lines (indent levels text).toList = (lines text.toList).map (indentLine levels) ∧
    ∀ place : Nat, (lines (indent levels text).toList)[place]? = some ['\n'] ↔ (lines text.toList)[place]? = some ['\n'] := by
  refine ⟨?_, ?_, outdent?_toList levels text, indent_injective levels, ?_, lines_indent levels text, ?_⟩
  · intro more
    rw [indent_indent, Nat.add_comm]
  · intro later
    rw [indent_append_iff, breaks_iff, String.toList_eq_nil_iff, String.toList_eq_nil_iff, or_assoc]
  · rw [toList_indent, count_shift]
  · intro place
    rw [lines_indent, List.getElem?_map, Option.map_eq_some_iff]
    simp only [indentLine_bare, exists_eq_right]

end Lowering.Layout
