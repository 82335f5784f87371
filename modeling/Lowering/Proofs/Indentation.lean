import Mathlib
import Lowering.Layout

/-! Indentation, one character at a time. What moves a text to the right stands before the characters
that begin its lines, so a text can be moved part by part, and what stands inside a line only moves
where it breaks the line itself. -/

namespace Lowering.Layout

/-- Whether what comes behind a text begins a line, given whether the text does. -/
def breaks (fresh : Bool) (text : List Char) : Bool :=
  text.getLast?.elim fresh (· == '\n')

/-- Moves every line that begins inside the text, and the first one if it begins with the text. -/
def shift (levels : Nat) (fresh : Bool) : List Char → List Char
  | [] => []
  | char :: rest =>
    if char = '\n' then char :: shift levels true rest
    else (if fresh then pad levels else []) ++ char :: shift levels false rest

/-- Moves every line of the text but the one that it begins in. -/
def hang (levels : Nat) (text : List Char) : List Char :=
  shift levels false text

/-- No line break in the text has anything but a line break behind it. -/
def Rigid (text : List Char) : Prop :=
  ∀ char, ['\n', char] <:+: text → char = '\n'

variable {levels : Nat} {fresh : Bool} {char : Char} {rest text : List Char}

@[simp]
theorem pad_zero : pad 0 = [] := rfl

theorem pad_add (first last : Nat) : pad (first + last) = pad first ++ pad last := by
  rw [pad, pad, pad, List.replicate_append_replicate, Nat.mul_add]

@[simp]
theorem shift_nil : shift levels fresh [] = [] := rfl

@[simp]
theorem shift_break : shift levels fresh ('\n' :: rest) = '\n' :: shift levels true rest := rfl

theorem shift_inside (inside : char ≠ '\n') :
    shift levels fresh (char :: rest) = (if fresh then pad levels else []) ++ char :: shift levels false rest :=
  if_neg inside

theorem lines_eq_nil : lines text = [] ↔ text = [] := by
  cases text with
  | nil => exact iff_of_true rfl rfl
  | cons char rest =>
    simp only [lines, reduceCtorEq, iff_false]
    split
    · exact List.cons_ne_nil _ _
    · split <;> exact List.cons_ne_nil _ _

/-- Lines put together again give the text. -/
theorem flatten_lines (text : List Char) : (lines text).flatten = text := by
  induction text with
  | nil => rfl
  | cons char rest ih =>
    simp only [lines]
    split
    next => rw [List.flatten_cons, ih, List.singleton_append]
    next =>
      split
      next none => rw [none] at ih; rw [← ih]; rfl
      next line later same => rw [same] at ih; rw [← ih]; rfl

/-- What stands before a text without a line break of its own belongs to the first line. -/
theorem lines_before {front line : List Char} {later : List (List Char)} (even : '\n' ∉ front)
    (cut : lines text = line :: later) :
    lines (front ++ text) = (front ++ line) :: later := by
  induction front with
  | nil => exact cut
  | cons char front ih =>
    have inside := List.ne_of_not_mem_cons even
    rw [List.cons_append, lines, if_neg inside.symm, ih (List.not_mem_of_not_mem_cons even), List.cons_append]

theorem lines_row {line : List Char} (even : '\n' ∉ line) :
    lines (line ++ '\n' :: rest) = (line ++ ['\n']) :: lines rest :=
  lines_before even rfl

section Moving

theorem not_mem_pad (levels : Nat) : '\n' ∉ pad levels := by
  intro member
  cases List.eq_of_mem_replicate member

/-- The lines of a text that is moved are its lines, each of them indented. -/
private theorem lines_shift (levels : Nat) (text : List Char) :
    lines (shift levels true text) = (lines text).map (indentLine levels) ∧
    ∀ line later, lines text = line :: later → lines (shift levels false text) = line :: later.map (indentLine levels) := by
  induction text with
  | nil => exact ⟨rfl, fun _ _ cut => nomatch cut⟩
  | cons char rest ih =>
    obtain ⟨moved, hanging⟩ := ih
    by_cases newline : char = '\n'
    · subst newline
      have broken : lines ('\n' :: shift levels true rest) = ['\n'] :: (lines rest).map (indentLine levels) := by
        rw [← moved]
        rfl
      refine ⟨broken, ?_⟩
      intro line later cut
      cases cut
      exact broken
    · have even : '\n' ∉ [char] := by simpa [eq_comm] using newline
      have alone : lines [char] = [[char]] := if_neg newline
      -- The first line begins with the character, so it is no bare line break.
      obtain ⟨tail, others, cut, hung⟩ : ∃ tail others, lines (char :: rest) = (char :: tail) :: others ∧
          lines (char :: shift levels false rest) = (char :: tail) :: others.map (indentLine levels) := by
        cases first : lines rest with
        | nil =>
          cases lines_eq_nil.mp first
          exact ⟨[], [], alone, alone⟩
        | cons next others => exact ⟨next, others, lines_before even first, lines_before even (hanging next others first)⟩
      rw [shift_inside newline, shift_inside newline, if_pos rfl, cut]
      constructor
      · rw [lines_before (not_mem_pad levels) hung, List.map_cons, indentLine, if_neg]
        exact fun same => newline (List.cons.inj same).1
      · intro line later same
        cases same
        exact hung

theorem indentChars_eq (levels : Nat) (text : List Char) : indentChars levels text = shift levels true text := by
  rw [← flatten_lines (shift levels true text), (lines_shift levels text).1, indentChars, List.flatMap_def]

theorem lines_indentChars (levels : Nat) (text : List Char) :
    lines (indentChars levels text) = (lines text).map (indentLine levels) := by
  rw [indentChars_eq, (lines_shift levels text).1]

/-- A bare line break stays one, and no other line becomes one. -/
theorem indentLine_bare {line : List Char} : indentLine levels line = ['\n'] ↔ line = ['\n'] := by
  unfold indentLine pad
  split
  next bare => exact iff_of_true bare bare
  next other =>
    refine iff_of_false ?_ other
    cases 4 * levels with
    | zero => exact other
    | succ count => exact fun same => nomatch (List.cons.inj same).1

theorem toList_indent (levels : Nat) (text : String) : (indent levels text).toList = shift levels true text.toList := by
  rw [indent, String.toList_ofList, indentChars_eq]

theorem breaks_cons (fresh : Bool) (char : Char) (rest : List Char) :
    breaks fresh (char :: rest) = breaks (char == '\n') rest := by
  rw [breaks, breaks, List.getLast?_cons]
  cases rest.getLast? <;> rfl

theorem breaks_append (fresh : Bool) (first last : List Char) :
    breaks fresh (first ++ last) = breaks (breaks fresh first) last := by
  induction first generalizing fresh with
  | nil => rfl
  | cons char first ih => rw [List.cons_append, breaks_cons, breaks_cons, ih]

theorem shift_append (levels : Nat) (fresh : Bool) (first last : List Char) :
    shift levels fresh (first ++ last) = shift levels fresh first ++ shift levels (breaks fresh first) last := by
  induction first generalizing fresh with
  | nil => rfl
  | cons char first ih =>
    rw [List.cons_append, breaks_cons]
    by_cases newline : char = '\n'
    · subst newline
      rw [shift_break, shift_break, ih, List.cons_append]
      rfl
    · rw [shift_inside newline, shift_inside newline, ih, beq_false_of_ne newline, List.append_assoc, List.cons_append]

/-- To move a text is not to break it. -/
theorem breaks_shift (levels : Nat) (fresh : Bool) (text : List Char) :
    breaks fresh (shift levels fresh text) = breaks fresh text := by
  induction text generalizing fresh with
  | nil => rfl
  | cons char rest ih =>
    by_cases newline : char = '\n'
    · subst newline
      rw [shift_break, breaks_cons, breaks_cons]
      exact ih true
    · rw [shift_inside newline, breaks_append, breaks_cons, breaks_cons, beq_false_of_ne newline, ih]

theorem shift_zero (fresh : Bool) (text : List Char) : shift 0 fresh text = text := by
  induction text generalizing fresh with
  | nil => rfl
  | cons char rest ih => rw [shift, ih, ih, pad_zero, ite_self, List.nil_append, ite_self]

private theorem shift_spaces (levels count : Nat) (rest : List Char) :
    shift levels false (List.replicate count ' ' ++ rest) = List.replicate count ' ' ++ shift levels false rest := by
  induction count with
  | zero => rfl
  | succ count ih =>
    rw [List.replicate_succ, List.cons_append, shift_inside (by decide), ih]
    rfl

private theorem shift_pad (inside : char ≠ '\n') (first last : Nat) :
    shift first true (pad last ++ char :: rest) = pad first ++ (pad last ++ char :: shift first false rest) := by
  unfold pad
  cases 4 * last with
  | zero => exact shift_inside inside
  | succ count =>
    rw [List.replicate_succ, List.cons_append, shift_inside (by decide), shift_spaces, shift_inside inside]
    rfl

/-- To move a text twice is to move it once by both distances. -/
theorem shift_shift (first last : Nat) (fresh : Bool) (text : List Char) :
    shift first fresh (shift last fresh text) = shift (first + last) fresh text := by
  induction text generalizing fresh with
  | nil => rfl
  | cons char rest ih =>
    by_cases newline : char = '\n'
    · subst newline
      rw [shift_break, shift_break, shift_break, ih]
    · rw [shift_inside newline, shift_inside newline, ← ih false]
      cases fresh with
      | false => exact shift_inside newline
      | true => rw [if_pos rfl, if_pos rfl, shift_pad newline, pad_add, List.append_assoc]

theorem hang_hang (first last : Nat) (text : List Char) : hang first (hang last text) = hang (first + last) text :=
  shift_shift first last false text

private theorem hang_suffix (levels : Nat) (fresh : Bool) (text : List Char) :
    hang levels text <:+ shift levels fresh text := by
  cases text with
  | nil => exact List.suffix_refl _
  | cons char rest =>
    by_cases newline : char = '\n'
    · subst newline
      exact List.suffix_refl _
    · rw [hang, shift_inside newline, shift_inside newline]
      exact List.suffix_append _ _

/-- What stands in a text hangs in the text when it is moved. -/
theorem hang_inside {piece : List Char} (inside : piece <:+: text) (levels : Nat) (fresh : Bool) :
    hang levels piece <:+: shift levels fresh text := by
  obtain ⟨before, after, rfl⟩ := inside
  rw [shift_append, shift_append]
  exact (hang_suffix levels (breaks fresh before) piece).isInfix.trans (List.infix_append _ _ _)

end Moving

section Outdenting

/-- Takes the spaces of so many levels from a line, which must have them, but nothing from a bare line
break. -/
def outdentLine? (levels : Nat) (line : List Char) : Option (List Char) :=
  if line = ['\n'] then some line else line.dropPrefix? (pad levels)

def outdent? (levels : Nat) (text : List Char) : Option (List Char) :=
  ((lines text).mapM (outdentLine? levels)).map List.flatten

theorem outdentLine?_indentLine (levels : Nat) (line : List Char) :
    outdentLine? levels (indentLine levels line) = some line := by
  unfold outdentLine?
  by_cases bare : line = ['\n']
  · rw [if_pos (indentLine_bare.mpr bare), indentLine, if_pos bare]
  · rw [if_neg (mt indentLine_bare.mp bare), indentLine, if_neg bare, List.dropPrefix?_eq_some_iff]
    exact ⟨pad levels, rfl, beq_self_eq_true _⟩

theorem outdent?_indent (levels : Nat) (text : List Char) : outdent? levels (indentChars levels text) = some text := by
  have each : ∀ parts : List (List Char), (parts.map (indentLine levels)).mapM (outdentLine? levels) = some parts := by
    intro parts
    induction parts with
    | nil => rfl
    | cons part parts ih => rw [List.map_cons, List.mapM_cons, outdentLine?_indentLine, ih]; rfl
  rw [outdent?, lines_indentChars, each, Option.map_some, flatten_lines]

end Outdenting

section Unmoved

private theorem length_shift (levels : Nat) (fresh : Bool) (text : List Char) :
    text.length ≤ (shift levels fresh text).length := by
  induction text generalizing fresh with
  | nil => exact Nat.le_refl _
  | cons char rest ih =>
    have fromBreak := ih true
    have fromInside := ih false
    by_cases newline : char = '\n'
    · subst newline
      simpa using fromBreak
    · simp only [shift_inside newline, List.length_append, List.length_cons]
      omega

private theorem break_infix_cons : (∀ other, ['\n', other] <:+: char :: rest → other = '\n') ↔
    (char = '\n' → ∀ other ∈ rest.head?, other = '\n') ∧ ∀ other, ['\n', other] <:+: rest → other = '\n' := by
  simp only [List.infix_cons_iff, List.cons_prefix_cons, or_imp, forall_and, and_imp]
  refine and_congr_left fun _ => ?_
  constructor
  · intro opening same other member
    obtain ⟨more, rfl⟩ := List.head?_eq_some_iff.mp member
    exact opening other same.symm ⟨more, rfl⟩
  · intro opening other same begins
    obtain ⟨more, rfl⟩ := begins
    exact opening same.symm other rfl

private theorem shift_eq_iff (positive : levels ≠ 0) (fresh : Bool) (text : List Char) :
    shift levels fresh text = text ↔
      (fresh = true → ∀ char ∈ text.head?, char = '\n') ∧ ∀ char, ['\n', char] <:+: text → char = '\n' := by
  induction text generalizing fresh with
  | nil => simp
  | cons char rest ih =>
    rw [break_infix_cons]
    by_cases newline : char = '\n'
    · subst newline
      simp [ih]
    · rw [shift_inside newline]
      cases fresh with
      | false => simp [newline, ih]
      | true =>
        have longer : pad levels ++ char :: shift levels false rest ≠ char :: rest := by
          intro same
          have grown := length_shift levels false rest
          have lengths := congrArg List.length same
          simp [pad] at lengths
          omega
        simp [longer, newline]

/-- A text that hangs from a block stays as it is exactly if it is rigid. -/
theorem hang_eq_iff (levels : Nat) (text : List Char) : hang levels text = text ↔ levels = 0 ∨ Rigid text := by
  by_cases none : levels = 0
  · subst none
    exact iff_of_true (shift_zero false text) (.inl rfl)
  · simp [hang, Rigid, shift_eq_iff none, none]

end Unmoved

section Standing

variable {first last piece : String}

theorem infix_before {piece : List Char} (inside : piece <:+: first.toList) (last : String) :
    piece <:+: (first ++ last).toList := by
  rw [String.toList_append]
  exact inside.trans (List.prefix_append _ _).isInfix

theorem infix_behind {piece : List Char} (first : String) (inside : piece <:+: last.toList) :
    piece <:+: (first ++ last).toList := by
  rw [String.toList_append]
  exact inside.trans (List.suffix_append _ _).isInfix

theorem infix_intercalate (mark : String) {text : String} {texts : List String} (member : text ∈ texts) :
    text.toList <:+: (mark.intercalate texts).toList := by
  rw [String.toList_intercalate]
  induction texts with
  | nil => cases member
  | cons first rest ih =>
    cases rest with
    | nil => rw [List.mem_singleton.mp member, List.map_singleton, List.intercalate_singleton]
    | cons next later =>
      rw [List.map_cons, List.map_cons, List.intercalate_cons_cons]
      rcases List.mem_cons.mp member with rfl | inRest
      · rw [List.append_assoc]
        exact (List.prefix_append _ _).isInfix
      · exact (ih inRest).trans (List.suffix_append _ _).isInfix

/-- The piece stands in the text. Behind its first line the blocks of the text may have moved it. -/
def Hangs (piece text : String) : Prop :=
  ∃ levels, hang levels piece.toList <:+: text.toList

namespace Hangs

theorem of_inside {text : String} (inside : piece.toList <:+: text.toList) : Hangs piece text :=
  ⟨0, (congrArg (· <:+: text.toList) (shift_zero false piece.toList)).mpr inside⟩

theorem refl (text : String) : Hangs text text :=
  of_inside (List.infix_refl _)

theorem trans {text : String} (inner : Hangs piece first) (outer : Hangs first text) : Hangs piece text := by
  obtain ⟨deep, inside⟩ := inner
  obtain ⟨levels, stands⟩ := outer
  refine ⟨levels + deep, ?_⟩
  rw [← hang_hang]
  exact (hang_inside inside levels false).trans stands

theorem before (inner : Hangs piece first) (last : String) : Hangs piece (first ++ last) :=
  inner.trans (of_inside (infix_before (List.infix_refl _) last))

theorem behind (first : String) (inner : Hangs piece last) : Hangs piece (first ++ last) :=
  inner.trans (of_inside (infix_behind first (List.infix_refl _)))

theorem among {text : String} {texts : List String} (inner : Hangs piece text) (mark : String) (member : text ∈ texts) :
    Hangs piece (mark.intercalate texts) :=
  inner.trans (of_inside (infix_intercalate mark member))

theorem joined {text : String} {texts : List String} (inner : Hangs piece text) (member : text ∈ texts) :
    Hangs piece (String.join texts) := by
  refine inner.trans (of_inside ?_)
  rw [String.toList_join, List.flatMap_def]
  exact List.infix_of_mem_flatten (List.mem_map_of_mem member)

theorem indented {text : String} (inner : Hangs piece text) (levels : Nat) : Hangs piece (indent levels text) := by
  refine inner.trans ⟨levels, ?_⟩
  rw [toList_indent]
  exact hang_inside (List.infix_refl _) levels true

end Hangs

end Standing

end Lowering.Layout
