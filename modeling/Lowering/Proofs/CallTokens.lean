import Mathlib
import Lowering.DeclaredType
import Lowering.Expr.Code
import Lowering.Layout
import Lowering.Proofs.ActionRuns

/-! The calls in a text. A call is a word that stands for a name of the source, with an opening
parenthesis right behind it, so texts that are put together keep their calls wherever no word runs
from one into the next. -/

namespace Lowering

namespace Tokens

/-- The character can stand in a word. -/
def isWord (char : Char) : Bool :=
  char.isAlphanum || char == '_'

/-- The name of the source that a word stands for. -/
def name? : List Char → Option String
  | 's' :: 'n' :: '_' :: name => some (String.ofList name)
  | _ => none

/-- The names that a text calls, from left to right, behind the word that it goes on with. -/
def calleesAfter (word : List Char) : List Char → List String
  | [] => []
  | char :: rest =>
    if isWord char then calleesAfter (word ++ [char]) rest
    else if char = '(' then (name? word).toList ++ calleesAfter [] rest
    else calleesAfter [] rest

def calleesIn (text : String) : List String :=
  calleesAfter [] text.toList

/-- The word that a text leaves unfinished. -/
def openWord (word : List Char) : List Char → List Char
  | [] => word
  | char :: rest => openWord (if isWord char then word ++ [char] else []) rest

theorem calleesAfter_append (word first rest : List Char) :
    calleesAfter word (first ++ rest) = calleesAfter word first ++ calleesAfter (openWord word first) rest := by
  induction first generalizing word with
  | nil => rfl
  | cons char first ih =>
    simp only [List.cons_append, calleesAfter, openWord]
    split
    next => exact ih _
    next =>
      split
      next => rw [ih, List.append_assoc]
      next => exact ih _

theorem openWord_append (word first rest : List Char) :
    openWord word (first ++ rest) = openWord (openWord word first) rest := by
  induction first generalizing word with
  | nil => rfl
  | cons char first ih => exact ih _

/-- The text leaves no word unfinished. -/
def ended (text : String) : Bool :=
  text.toList.getLast?.all fun char => !isWord char

/-- The text neither goes on with a word nor calls the word before it. -/
def clear (text : List Char) : Bool :=
  text.head?.all fun char => !isWord char && char != '('

def apart (text : String) : Bool :=
  clear text.toList

def silent (text : String) : Bool :=
  (calleesIn text).isEmpty

/-- The text can stand before any other without a change to its calls. -/
def opens (mark : String) : Bool :=
  silent mark && ended mark

/-- The text can stand behind any other without a change to its calls. -/
def closes (mark : String) : Bool :=
  silent mark && apart mark

/-- The text can stand between any two others without a change to their calls. -/
def divides (mark : String) : Bool :=
  opens mark && closes mark && mark.toList.head?.isSome

section Joining

variable {first last mark text : String}

theorem calleesAfter_apart (word : List Char) (away : apart text = true) :
    calleesAfter word text.toList = calleesIn text := by
  unfold calleesIn
  cases same : text.toList with
  | nil => rfl
  | cons char rest =>
    simp only [apart, clear, same, List.head?_cons, Option.all_some, Bool.and_eq_true, Bool.not_eq_true', bne_iff_ne] at away
    simp only [calleesAfter, away.1, Bool.false_eq_true, if_false, if_neg away.2]

theorem calleesIn_append (away : apart last = true) : calleesIn (first ++ last) = calleesIn first ++ calleesIn last := by
  rw [calleesIn, String.toList_append, calleesAfter_append, calleesAfter_apart _ away]
  rfl

theorem openWord_ended (whole : ended first = true) : openWord [] first.toList = [] := by
  rcases List.eq_nil_or_concat' first.toList with same | ⟨begun, char, same⟩
  · rw [same]
    rfl
  · rw [ended, same, List.getLast?_concat, Option.all_some, Bool.not_eq_true'] at whole
    simp only [same, openWord_append, openWord, whole, Bool.false_eq_true, if_false]

theorem calleesIn_ended (whole : ended first = true) : calleesIn (first ++ last) = calleesIn first ++ calleesIn last := by
  rw [calleesIn, String.toList_append, calleesAfter_append, openWord_ended whole]
  rfl

/-- A text ends as its last part does. -/
theorem ended_append (first last : String) (whole : ended last = true) (some : last.toList.getLast?.isSome = true) :
    ended (first ++ last) = true := by
  obtain ⟨char, ends⟩ := Option.isSome_iff_exists.mp some
  rw [ended, ends] at whole
  rw [ended, String.toList_append, List.getLast?_append, ends]
  exact whole

theorem apart_append (away : apart first = true) (opening : first.toList.head?.isSome = true) :
    apart (first ++ last) = true := by
  obtain ⟨char, begins⟩ := Option.isSome_iff_exists.mp opening
  rw [apart, clear, begins] at away
  rw [apart, clear, String.toList_append, List.head?_append, begins]
  exact away

theorem calleesIn_opening (mark text : String) (mute : opens mark = true) : calleesIn (mark ++ text) = calleesIn text := by
  obtain ⟨mute, whole⟩ := Bool.and_eq_true_iff.mp mute
  rw [calleesIn_ended whole, List.isEmpty_iff.mp mute, List.nil_append]

theorem calleesIn_closing (text mark : String) (mute : closes mark = true) : calleesIn (text ++ mark) = calleesIn text := by
  obtain ⟨mute, away⟩ := Bool.and_eq_true_iff.mp mute
  rw [calleesIn_append away, List.isEmpty_iff.mp mute, List.append_nil]

theorem calleesIn_between (first mark last : String) (mute : divides mark = true) :
    calleesIn (first ++ mark ++ last) = calleesIn first ++ calleesIn last := by
  obtain ⟨sides, opening⟩ := Bool.and_eq_true_iff.mp mute
  obtain ⟨before, behind⟩ := Bool.and_eq_true_iff.mp sides
  have away := (Bool.and_eq_true_iff.mp behind).2
  rw [String.append_assoc, calleesIn_append (apart_append away opening), calleesIn_opening _ _ before]

theorem calleesIn_intercalate (mute : divides mark = true) (texts : List String) :
    calleesIn (mark.intercalate texts) = texts.flatMap calleesIn := by
  induction texts with
  | nil => rw [String.intercalate_nil]; rfl
  | cons text texts ih =>
    cases texts with
    | nil => rw [String.intercalate_singleton, List.flatMap_singleton]
    | cons next rest =>
      rw [String.intercalate_cons_cons, calleesIn_between _ _ _ mute, ih, ← List.flatMap_cons]

theorem calleesIn_join {texts : List String} (each : ∀ text ∈ texts, ended text = true) :
    calleesIn (String.join texts) = texts.flatMap calleesIn := by
  induction texts with
  | nil => rfl
  | cons text texts ih =>
    obtain ⟨whole, later⟩ := List.forall_mem_cons.mp each
    rw [String.join_cons, calleesIn_ended whole, ih later, List.flatMap_cons]

/-- Only a parenthesis makes a call. -/
theorem calleesAfter_plain (word : List Char) {chars : List Char} (none : '(' ∉ chars) : calleesAfter word chars = [] := by
  induction chars generalizing word with
  | nil => rfl
  | cons char rest ih =>
    obtain ⟨other, later⟩ := not_or.mp (List.mem_cons.not.mp none)
    simp only [calleesAfter, if_neg (Ne.symm other)]
    split
    next => exact ih _ later
    next => exact ih _ later

end Joining

section Words

theorem openWord_word {word chars : List Char} (all : ∀ char ∈ chars, isWord char = true) :
    openWord word chars = word ++ chars := by
  induction chars generalizing word with
  | nil => exact (List.append_nil word).symm
  | cons char rest ih =>
    obtain ⟨first, later⟩ := List.forall_mem_cons.mp all
    rw [openWord, if_pos first, ih later, List.append_assoc, List.singleton_append]

variable {name text : String}

theorem code_words (written : Name.code name = .ok text) :
    text = "sn_" ++ name ∧ ∀ char ∈ name.toList, isWord char = true := by
  unfold Name.code at written
  split at written
  next valid =>
    cases written
    refine ⟨rfl, ?_⟩
    unfold Name.isValid at valid
    split at valid
    next => cases valid
    next first rest same =>
      obtain ⟨opening, later⟩ := Bool.and_eq_true_iff.mp valid
      rw [same]
      refine List.forall_mem_cons.mpr ⟨?_, List.all_eq_true.mp later⟩
      have letter : first.isAlphanum = true ∨ first = '_' := by
        simpa [Char.isAlphanum, or_right_comm] using Or.inl (Bool.or_eq_true_iff.mp opening)
      simpa [isWord] using letter
  next => cases written

theorem calleesIn_name (written : Name.code name = .ok text) : calleesIn text = [] := by
  obtain ⟨rfl, words⟩ := code_words written
  have none : '(' ∉ ("sn_" ++ name).toList := by
    rw [String.toList_append, List.mem_append]
    intro member
    rcases member with mark | inName
    · exact absurd mark (by decide)
    · exact absurd (words _ inName) (by decide)
  exact calleesAfter_plain [] none

/-- A name with a parenthesis behind it is a call. -/
theorem calleesIn_call (written : Name.code name = .ok text) (rest : String) :
    calleesIn (text ++ "(" ++ rest) = name :: calleesIn rest := by
  have unfinished : openWord [] text.toList = ['s', 'n', '_'] ++ name.toList := by
    obtain ⟨rfl, words⟩ := code_words written
    rw [String.toList_append, openWord_append, openWord_word words]
    rfl
  have alone : calleesAfter [] text.toList = [] := calleesIn_name written
  rw [String.append_assoc, calleesIn, String.toList_append, calleesAfter_append, alone, unfinished, String.toList_append]
  change (some (String.ofList name.toList)).toList ++ calleesIn rest = _
  rw [String.ofList_toList]
  rfl

/-- Types are written in words and angle brackets. -/
theorem type_words (tree : Tree) (text : String) (written : DeclaredType.code tree = .ok text) :
    ∀ char ∈ text.toList, isWord char = true ∨ char = '<' ∨ char = '>' := by
  rw [DeclaredType.code] at written
  simp only [except_bind_ok] at written
  obtain ⟨fields, _, _, _, base, _, written⟩ := written
  split at written
  next container element named _ =>
    obtain ⟨inner, inside, written⟩ := except_bind_ok.mp written
    cases written
    have within := type_words element.content inner inside
    have outside : container.toList.all isWord = true := by
      unfold DeclaredType.container? at named
      split at named <;> cases named <;> rfl
    intro char member
    simp only [String.toList_append, List.mem_append] at member
    obtain ((member | opens) | member) | closes := member
    · exact .inl (List.all_eq_true.mp outside char member)
    · exact .inr (.inl (List.mem_singleton.mp opens))
    · exact within char member
    · exact .inr (.inr (List.mem_singleton.mp closes))
  next => cases written
  next =>
    split at written
    next scalar named _ =>
      cases written
      have words : text.toList.all isWord = true := by
        unfold DeclaredType.scalar? at named
        split at named <;> cases named <;> rfl
      intro char member
      exact .inl (List.all_eq_true.mp words char member)
    next => cases written
    next => cases written
termination_by sizeOf tree
decreasing_by exact Node.smaller _

theorem calleesIn_type {tree : Tree} (written : DeclaredType.code tree = .ok text) : calleesIn text = [] := by
  refine calleesAfter_plain [] ?_
  intro member
  exact absurd (type_words tree text written '(' member) (by decide)

end Words

section Lines

variable {levels : Nat}

private theorem calleesAfter_pad (rest : List Char) :
    calleesAfter [] (Layout.pad levels ++ rest) = calleesAfter [] rest := by
  unfold Layout.pad
  induction 4 * levels with
  | zero => rfl
  | succ count ih => exact ih

private theorem calleesAfter_indentLine (line rest : List Char) :
    calleesAfter [] (Layout.indentLine levels line ++ rest) = calleesAfter [] (line ++ rest) := by
  unfold Layout.indentLine
  split
  · rfl
  · rw [List.append_assoc, calleesAfter_pad]

private theorem lines_ne {char : Char} {rest : List Char} : Layout.lines (char :: rest) ≠ [] := by
  simp only [Layout.lines]
  split
  · exact List.cons_ne_nil _ _
  · split <;> exact List.cons_ne_nil _ _

private theorem calleesAfter_indentChars {text : List Char}
    (hanging : ∀ line later, Layout.lines text = line :: later →
      calleesAfter [] (line ++ later.flatMap (Layout.indentLine levels)) = calleesAfter [] text) :
    calleesAfter [] (Layout.indentChars levels text) = calleesAfter [] text := by
  unfold Layout.indentChars
  cases cut : Layout.lines text with
  | nil =>
    cases text with
    | nil => rfl
    | cons => exact absurd cut lines_ne
  | cons line later => rw [List.flatMap_cons, calleesAfter_indentLine, hanging line later cut]

/-- A text keeps its calls when all its lines but the first are moved. -/
private theorem calleesAfter_hanging (word : List Char) {text line : List Char} {later : List (List Char)}
    (cut : Layout.lines text = line :: later) :
    calleesAfter word (line ++ later.flatMap (Layout.indentLine levels)) = calleesAfter word text := by
  induction text generalizing word line later with
  | nil => cases cut
  | cons char rest ih =>
    simp only [Layout.lines] at cut
    split at cut
    next newline =>
      -- No word runs across the line break, so what follows counts on its own.
      cases cut
      subst newline
      exact calleesAfter_indentChars fun _ _ => ih []
    next =>
      split at cut
      next none =>
        cases cut
        cases rest with
        | nil => rfl
        | cons => exact absurd none lines_ne
      next first others more =>
        cases cut
        simp only [List.cons_append, calleesAfter, ih _ more]

/-- A text keeps its calls when it is moved to the right. -/
theorem calleesIn_indent (text : String) : calleesIn (Layout.indent levels text) = calleesIn text := by
  rw [Layout.indent, calleesIn, String.toList_ofList]
  exact calleesAfter_indentChars fun _ _ => calleesAfter_hanging []

end Lines

end Tokens
end Lowering
