import Mathlib
import Lowering.Literal

/-! The tokens that quoted literals make. Only the two ends of such a text are looked at, so a quote
inside it may end the token early and leave the rest of the text to be read as code. -/

namespace Lowering

/-- A form of token between two equal marks, with a reader that finds the second of them. What may stand
between the marks is such that there is only one way to find it. -/
structure Quotation where
  mark : Char
  Inside : List Char → Prop
  close : List Char → Option (List Char × List Char)
  close_iff : ∀ {text inner rest}, close text = some (inner, rest) ↔ text = inner ++ mark :: rest ∧ Inside inner

namespace Quotation

/-- What stands between the marks, with the marks. -/
def token (quotation : Quotation) (inner : List Char) : List Char :=
  quotation.mark :: (inner ++ [quotation.mark])

/-- The token that a text begins with, and the text behind it. -/
def read (quotation : Quotation) : List Char → Option (List Char × List Char)
  | [] => none
  | char :: rest =>
    if char = quotation.mark then (quotation.close rest).map (Prod.map quotation.token id) else none

variable {quotation : Quotation} {inner before after rest : List Char}

/-- A token ends before a text between marks does, and leaves code behind it. -/
def EndsEarly (quotation : Quotation) (inner : List Char) : Prop :=
  ∃ before after, inner = before ++ quotation.mark :: after ∧ quotation.Inside before ∧
    ∀ rest, quotation.read (quotation.token inner ++ rest) = some (quotation.token before, after ++ quotation.mark :: rest)

/-- No token ends in a text between marks. If one begins with it, then it takes in some of what follows. -/
def StaysOpen (quotation : Quotation) (inner : List Char) : Prop :=
  quotation.read (quotation.token inner) = none ∧
    ∀ rest token after, quotation.read (quotation.token inner ++ rest) = some (token, after) →
      ∃ taken, taken ≠ [] ∧ token = quotation.token inner ++ taken ∧ rest = taken ++ after

theorem read_mark {text token : List Char} : quotation.read (quotation.mark :: text) = some (token, rest) ↔
    ∃ inner, token = quotation.token inner ∧ text = inner ++ quotation.mark :: rest ∧ quotation.Inside inner := by
  simp only [read, if_true, Option.map_eq_some_iff, Prod.exists, Prod.map, Prod.mk.injEq, id_eq, quotation.close_iff]
  constructor
  · intro reads
    obtain ⟨inner, _, ⟨same, inside⟩, token, rfl⟩ := reads
    exact ⟨inner, token.symm, same, inside⟩
  · intro begins
    obtain ⟨inner, token, same, inside⟩ := begins
    exact ⟨inner, rest, ⟨same, inside⟩, token.symm, rfl⟩

theorem token_append (quotation : Quotation) (inner rest : List Char) :
    quotation.token inner ++ rest = quotation.mark :: (inner ++ quotation.mark :: rest) := by
  simp [token]

theorem token_injective : Function.Injective quotation.token := by
  intro first last same
  exact List.append_cancel_right (List.cons.inj same).2

/-- A text between marks is read as one token, whatever follows, exactly if it may stand there. -/
theorem reads_token : (∀ rest, quotation.read (quotation.token inner ++ rest) = some (quotation.token inner, rest)) ↔
    quotation.Inside inner := by
  constructor
  · intro reads
    have alone := reads []
    rw [token_append, read_mark] at alone
    obtain ⟨other, same, _, inside⟩ := alone
    rwa [token_injective same]
  · intro inside rest
    rw [token_append, read_mark]
    exact ⟨inner, rfl, rfl, inside⟩

/-- Otherwise the token ends too early, or it goes on into what follows. -/
theorem misread (odd : ¬ quotation.Inside inner) : quotation.EndsEarly inner ∨ quotation.StaysOpen inner := by
  by_cases early : ∃ before after, inner = before ++ quotation.mark :: after ∧ quotation.Inside before
  · left
    obtain ⟨before, after, rfl, inside⟩ := early
    refine ⟨before, after, rfl, inside, ?_⟩
    intro rest
    rw [token_append, read_mark]
    exact ⟨before, rfl, by rw [List.append_assoc, List.cons_append], inside⟩
  · right
    have goesOn : ∀ rest token after, quotation.read (quotation.token inner ++ rest) = some (token, after) →
        ∃ taken, taken ≠ [] ∧ token = quotation.token inner ++ taken ∧ rest = taken ++ after := by
      intro rest token after reads
      rw [token_append, read_mark] at reads
      obtain ⟨other, rfl, same, inside⟩ := reads
      rcases List.append_eq_append_iff.mp same with ⟨more, rfl, behind⟩ | ⟨more, rfl, behind⟩
      · cases more with
        | nil => exact absurd (List.append_nil inner ▸ inside) odd
        | cons char more =>
          obtain ⟨rfl, rfl⟩ := List.cons.inj behind
          exact ⟨more ++ [quotation.mark], by simp, by simp [token], by simp⟩
      · cases more with
        | nil => exact absurd ((List.append_nil other).symm ▸ inside) odd
        | cons char more =>
          obtain ⟨rfl, _⟩ := List.cons.inj behind
          exact absurd ⟨other, more, rfl, inside⟩ early
    refine ⟨?_, goesOn⟩
    cases alone : quotation.read (quotation.token inner) with
    | none => rfl
    | some pair =>
      obtain ⟨taken, some, _, nothing⟩ := goesOn [] pair.1 pair.2 (by rw [List.append_nil, alone])
      cases List.append_eq_nil_iff.mp nothing.symm |>.1
      exact absurd rfl some

end Quotation

section Strings

/-- Whether the character behind a text is escaped: a backslash stands before it that is not itself
escaped. The flag says so of the first character of the text. -/
def escapes (escaped : Bool) (text : List Char) : Bool :=
  text.foldl (fun escaped char => char == '\\' && !escaped) escaped

/-- Every quote in the text is escaped, and a quote behind it would not be. -/
def Sealed (escaped : Bool) (text : List Char) : Prop :=
  (∀ before after, text = before ++ '"' :: after → escapes escaped before = true) ∧ escapes escaped text = false

/-- Reads up to the first quote that is not escaped. -/
def closeString (escaped : Bool) : List Char → Option (List Char × List Char)
  | [] => none
  | char :: rest =>
    if char = '"' ∧ escaped = false then some ([], rest)
    else (closeString (char == '\\' && !escaped) rest).map (Prod.map (char :: ·) id)

variable {escaped : Bool} {char : Char} {text inner rest : List Char}

theorem sealed_nil : Sealed escaped [] ↔ escaped = false := by
  simp [Sealed, escapes]

theorem sealed_cons : Sealed escaped (char :: text) ↔
    (char = '"' → escaped = true) ∧ Sealed (char == '\\' && !escaped) text := by
  unfold Sealed
  rw [← and_assoc]
  refine and_congr_left' ?_
  constructor
  · intro each
    refine ⟨?_, ?_⟩
    · intro quote
      exact each [] text (by rw [quote, List.nil_append])
    · intro before after same
      exact each (char :: before) after (by rw [same, List.cons_append])
  · intro ⟨first, later⟩ before after same
    cases before with
    | nil => exact first (List.cons.inj same).1
    | cons other before =>
      obtain ⟨rfl, behind⟩ := List.cons.inj same
      exact later before after behind

theorem prepended {found : Option (List Char × List Char)} : found.map (Prod.map (char :: ·) id) = some (inner, rest) ↔
    ∃ later, inner = char :: later ∧ found = some (later, rest) := by
  simp only [Option.map_eq_some_iff, Prod.exists, Prod.map, Prod.mk.injEq, id_eq]
  constructor
  · intro ⟨later, _, found, same, rfl⟩
    exact ⟨later, same.symm, found⟩
  · intro ⟨later, same, found⟩
    exact ⟨later, rest, found, same.symm, rfl⟩

theorem closeString_iff :
    closeString escaped text = some (inner, rest) ↔ text = inner ++ '"' :: rest ∧ Sealed escaped inner := by
  induction text generalizing escaped inner with
  | nil => simp [closeString]
  | cons char text ih =>
    rw [closeString]
    by_cases closes : char = '"' ∧ escaped = false
    · obtain ⟨rfl, rfl⟩ := closes
      constructor
      · intro found
        cases found
        exact ⟨rfl, sealed_nil.mpr rfl⟩
      · intro ⟨same, intact⟩
        cases inner with
        | nil => cases same; rfl
        | cons other inner =>
          obtain ⟨rfl, _⟩ := List.cons.inj same
          cases (sealed_cons.mp intact).1 rfl
    · rw [if_neg closes, prepended]
      constructor
      · intro ⟨later, same, found⟩
        subst same
        obtain ⟨rfl, intact⟩ := ih.mp found
        refine ⟨rfl, sealed_cons.mpr ⟨?_, intact⟩⟩
        intro quote
        by_contra unescaped
        exact closes ⟨quote, Bool.eq_false_iff.mpr unescaped⟩
      · intro ⟨same, intact⟩
        cases inner with
        | nil =>
          obtain ⟨rfl, _⟩ := List.cons.inj same
          exact absurd ⟨rfl, sealed_nil.mp intact⟩ closes
        | cons other inner =>
          obtain ⟨rfl, behind⟩ := List.cons.inj same
          exact ⟨inner, rfl, ih.mpr ⟨behind, (sealed_cons.mp intact).2⟩⟩

def Quotation.string : Quotation where
  mark := '"'
  Inside := Sealed false
  close := closeString false
  close_iff := closeString_iff

end Strings

section Characters

def isHex (char : Char) : Bool :=
  char.isDigit || ('a' ≤ char && char ≤ 'f') || ('A' ≤ char && char ≤ 'F')

/-- The digits of a number in an escape, of which there are one to six. Low lines may stand behind the
first. -/
def isScalar (digits : List Char) : Bool :=
  digits.head?.any isHex && digits.all (fun char => isHex char || char == '_') && (digits.filter (· != '_')).length ≤ 6

/-- What one character is written as: itself, or an escape that names it. -/
inductive OneCharacter : List Char → Prop where
  | plain {char} (ordinary : char ∉ ['\'', '\\', '\n', '\r', '\t']) : OneCharacter [char]
  | named {char} (known : char ∈ ['n', 'r', 't', '\\', '0', '\'', '"']) : OneCharacter ['\\', char]
  | byte {first last} (octal : '0' ≤ first ∧ first ≤ '7') (hex : isHex last = true) :
    OneCharacter ['\\', 'x', first, last]
  | scalar {digits} (counted : isScalar digits = true) : OneCharacter ('\\' :: 'u' :: '\x7b' :: (digits ++ ['\x7d']))

/-- Reads one character up to the mark behind it. -/
def closeCharacter : List Char → Option (List Char × List Char)
  | '\\' :: 'x' :: first :: last :: '\'' :: rest =>
    if '0' ≤ first ∧ first ≤ '7' ∧ isHex last then some (['\\', 'x', first, last], rest) else none
  | '\\' :: 'u' :: '\x7b' :: rest =>
    match rest.takeWhile (· != '\x7d'), rest.dropWhile (· != '\x7d') with
    | digits, '\x7d' :: '\'' :: rest =>
      if isScalar digits then some ('\\' :: 'u' :: '\x7b' :: (digits ++ ['\x7d']), rest) else none
    | _, _ => none
  | '\\' :: char :: '\'' :: rest =>
    if char ∈ ['n', 'r', 't', '\\', '0', '\'', '"'] then some (['\\', char], rest) else none
  | char :: '\'' :: rest =>
    if char ∈ ['\'', '\\', '\n', '\r', '\t'] then none else some ([char], rest)
  | _ => none

variable {text inner rest : List Char}

private theorem scalar_split {digits : List Char} (counted : isScalar digits = true) (behind : List Char) :
    (digits ++ '\x7d' :: behind).takeWhile (· != '\x7d') = digits ∧
      (digits ++ '\x7d' :: behind).dropWhile (· != '\x7d') = '\x7d' :: behind := by
  have each : ∀ digit ∈ digits, (digit != '\x7d') = true := by
    intro digit member
    have shown := List.all_eq_true.mp (Bool.and_eq_true_iff.mp (Bool.and_eq_true_iff.mp counted).1).2 digit member
    apply bne_iff_ne.mpr
    intro same
    subst same
    cases shown
  rw [List.takeWhile_append_of_pos each, List.dropWhile_append_of_pos each]
  exact ⟨List.append_nil digits, rfl⟩

theorem closeCharacter_iff :
    closeCharacter text = some (inner, rest) ↔ text = inner ++ '\'' :: rest ∧ OneCharacter inner := by
  constructor
  · intro found
    unfold closeCharacter at found
    split at found
    next =>
      split at found
      next shown =>
        cases found
        exact ⟨rfl, .byte ⟨shown.1, shown.2.1⟩ shown.2.2⟩
      next => cases found
    next behind =>
      split at found
      next after dropped =>
        split at found
        next counted =>
          cases found
          have same : behind.takeWhile (· != '\x7d') ++ behind.dropWhile (· != '\x7d') = behind :=
            List.takeWhile_append_dropWhile
          rw [dropped] at same
          refine ⟨?_, .scalar counted⟩
          simp only [List.cons_append, List.append_assoc, List.nil_append, same]
        next => cases found
      next => cases found
    next =>
      split at found
      next known =>
        cases found
        exact ⟨rfl, .named known⟩
      next => cases found
    next =>
      split at found
      next => cases found
      next ordinary =>
        cases found
        exact ⟨rfl, .plain ordinary⟩
    next => cases found
  · intro ⟨same, one⟩
    subst same
    cases one with
    | @plain char ordinary =>
      have slash : char ≠ '\\' := by
        intro same
        subst same
        exact ordinary (by decide)
      simp [closeCharacter, slash, ordinary]
    | named known => fin_cases known <;> rfl
    | byte octal hex =>
      simp [closeCharacter, octal, hex]
    | scalar counted =>
      obtain ⟨taken, dropped⟩ := scalar_split counted ('\'' :: rest)
      simp only [List.cons_append, List.append_assoc, List.nil_append, closeCharacter, taken, dropped, counted, if_true]

def Quotation.character : Quotation where
  mark := '\''
  Inside := OneCharacter
  close := closeCharacter
  close_iff := closeCharacter_iff

end Characters

namespace Literal

/-- The token that the text of a literal is meant to be. -/
def quotation? : LiteralKind → Option Quotation
  | .str => some .string
  | .char => some .character
  | _ => none

theorem enclosed_iff {mark : Char} {least : Nat} {text : String} (two : 2 ≤ least) : enclosed mark least text = true ↔
    ∃ inner, text.toList = mark :: (inner ++ [mark]) ∧ least ≤ inner.length + 2 := by
  rw [enclosed, ← String.length_toList]
  simp only [Bool.and_eq_true, decide_eq_true_eq, beq_iff_eq]
  constructor
  · intro ⟨⟨long, first⟩, last⟩
    obtain ⟨front, same⟩ := List.getLast?_eq_some_iff.mp last
    rw [same] at long first ⊢
    cases front with
    | nil =>
      simp only [List.nil_append, List.length_singleton] at long
      omega
    | cons char inner =>
      obtain rfl := Option.some.inj first
      refine ⟨inner, rfl, ?_⟩
      simp only [List.length_append, List.length_cons, List.length_nil] at long
      omega
  · intro ⟨inner, same, long⟩
    rw [same]
    refine ⟨⟨by simpa using long, rfl⟩, ?_⟩
    rw [← List.cons_append]
    exact List.getLast?_concat

private theorem ifEnclosed_ok {mark : Char} {least : Nat} (two : 2 ≤ least) (text written : String)
    (error : Error) (code : String) :
    (if enclosed mark least text then Except.ok written else .error error) = .ok code ↔
      (∃ inner, text.toList = mark :: (inner ++ [mark]) ∧ least ≤ inner.length + 2) ∧ code = written := by
  rw [← enclosed_iff two]
  split
  next both => simp [both, eq_comm]
  next missing => simp [missing]

/-- Literals of text and of characters are accepted exactly if they have both their marks, and a
character something between them. They are carried over as they are. -/
theorem code_quoted {value : Literal} {quotation : Quotation} (quoted : quotation? value.kind = some quotation)
    {code : String} :
    value.code = .ok code ↔ (∃ inner, value.text.toList = quotation.token inner ∧ (value.kind = .char → inner ≠ [])) ∧
      code = if value.kind = .str then "SnString::from(" ++ value.text ++ ")" else value.text := by
  obtain ⟨kind, text⟩ := value
  cases kind with
  | str =>
    cases quoted
    refine (ifEnclosed_ok (Nat.le_refl 2) ..).trans (and_congr_left' (exists_congr fun inner => and_congr_right' ?_))
    exact iff_of_true (Nat.le_add_left 2 _) nofun
  | char =>
    cases quoted
    refine (ifEnclosed_ok (by omega) ..).trans (and_congr_left' (exists_congr fun inner => and_congr_right' ?_))
    rw [← List.length_pos_iff]
    constructor
    · intro long _
      omega
    · intro some
      have := some rfl
      omega
  | verbatim | int | float | bool => cases quoted

/-- How the text of a literal is read depends on what stands between its marks. If that may stand there
then the text is one token, whatever follows it. Otherwise the token ends before the text does, so that
the rest is read as code, or it takes in some of what follows. -/
theorem literal_read {value : Literal} {quotation : Quotation} (quoted : quotation? value.kind = some quotation)
    {code : String} (accepted : value.code = .ok code) : ∃ inner, value.text.toList = quotation.token inner ∧
      code = (if value.kind = .str then "SnString::from(" ++ value.text ++ ")" else value.text) ∧
      ((∀ rest, quotation.read (value.text.toList ++ rest) = some (value.text.toList, rest)) ↔ quotation.Inside inner) ∧
      (¬ quotation.Inside inner → quotation.EndsEarly inner ∨ quotation.StaysOpen inner) := by
  obtain ⟨⟨inner, same, _⟩, written⟩ := (code_quoted quoted).mp accepted
  refine ⟨inner, same, written, ?_, Quotation.misread⟩
  rw [same]
  exact Quotation.reads_token

theorem escaped_quote_read : Literal.code ⟨.str, "\"a\\\"b\""⟩ = .ok "SnString::from(\"a\\\"b\")" ∧
    ∀ rest, Quotation.string.read ("\"a\\\"b\"".toList ++ rest) = some ("\"a\\\"b\"".toList, rest) := by
  have accepted : Literal.code ⟨.str, "\"a\\\"b\""⟩ = .ok "SnString::from(\"a\\\"b\")" := rfl
  obtain ⟨inner, same, _, reads, _⟩ := literal_read rfl accepted
  have marks : "\"a\\\"b\"".toList = Quotation.string.token ['a', '\\', '"', 'b'] := rfl
  cases Quotation.token_injective (marks.symm.trans same)
  have closes : Quotation.string.close "a\\\"b\"".toList = some (['a', '\\', '"', 'b'], []) := rfl
  exact ⟨accepted, reads.mpr (Quotation.string.close_iff.mp closes).2⟩

/-- Text with quotes of its own is accepted, though the first of them ends the token, and so are several
characters between the marks of one. -/
theorem quotes_inside_accepted :
    (Literal.code ⟨.str, "\"a\"), launch(\"b\""⟩ = .ok "SnString::from(\"a\"), launch(\"b\")" ∧
      Quotation.string.read "\"a\"), launch(\"b\"".toList = some ("\"a\"".toList, "), launch(\"b\"".toList)) ∧
    Literal.code ⟨.char, "'a' + 'b'"⟩ = .ok "'a' + 'b'" ∧
      Quotation.character.read "'a' + 'b'".toList = some ("'a'".toList, " + 'b'".toList) :=
  ⟨⟨rfl, rfl⟩, rfl, rfl⟩

end Literal

end Lowering
