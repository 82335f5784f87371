import Lowering.Expr.Code
import Lowering.Proofs.ExprParts

/-! How texts begin. The text of an expression never begins like a reference, unless it opens with
text that is carried over as it was given, and neither does a declared type. -/

namespace Lowering

/-- The text begins neither like a reference nor like the word that makes one mutable. -/
def Bare (text : String) : Prop :=
  ∃ char rest, text.toList = char :: rest ∧ char ≠ '&' ∧ char ≠ 'm'

theorem Bare.append {text : String} (bare : Bare text) (more : String) : Bare (text ++ more) := by
  obtain ⟨char, rest, same, reference, word⟩ := bare
  exact ⟨char, rest ++ more.toList, by rw [String.toList_append, same, List.cons_append], reference, word⟩

/-- A text written out in the code shows how it begins. -/
theorem Bare.opening (text : String) (opens : (text.toList.head?.any fun char => char != '&' && char != 'm') = true) :
    Bare text := by
  obtain ⟨char, first, other⟩ := (Option.any_eq_true ..).mp opens
  obtain ⟨rest, same⟩ := List.head?_eq_some_iff.mp first
  simp only [Bool.and_eq_true, bne_iff_ne] at other
  exact ⟨char, rest, same, other⟩

theorem Bare.of_chars {text : String} (nonempty : text.toList ≠ [])
    (opens : ∀ char rest, text.toList = char :: rest → ¬ (char = '&' ∨ char = 'm')) : Bare text := by
  obtain ⟨char, rest, same⟩ := List.exists_cons_of_ne_nil nonempty
  exact ⟨char, rest, same, not_or.mp (opens char rest same)⟩

theorem Name.code_eq {name text : String} (written : Name.code name = .ok text) : text = "sn_" ++ name := by
  unfold Name.code at written
  split at written
  next => cases written; rfl
  next => cases written

theorem Name.code_bare {name text : String} (written : Name.code name = .ok text) : Bare text := by
  rw [code_eq written]
  exact (Bare.opening "sn_" rfl).append name

private theorem ofList_ne {char : Char} {rest : List Char} {word : String} (first : word.toList.head? ≠ some char) :
    String.ofList (char :: rest) ≠ word := by
  rintro rfl
  simp at first

/-- No numeral begins like a reference. -/
theorem Numeral.unread {char : Char} (rest : List Char) (odd : char = '&' ∨ char = 'm') :
    ofChars? (char :: rest) = none := by
  have unsigned : signed (char :: rest) = (false, char :: rest) := by
    rcases odd with rfl | rfl <;> rfl
  have lower : char.toLower = char := by
    rcases odd with rfl | rfl <;> rfl
  have unmarked : char.isDigit = false ∧ char ≠ '.' := by
    rcases odd with rfl | rfl <;> decide
  simp only [ofChars?, unsigned, List.map_cons, lower]
  rw [if_neg, if_neg]
  · simp [decimal?, unmarked]
  · exact ofList_ne (by rcases odd with rfl | rfl <;> decide)
  · exact fun same => same.elim (ofList_ne (by rcases odd with rfl | rfl <;> decide))
      (ofList_ne (by rcases odd with rfl | rfl <;> decide))

namespace Literal

variable {literal : Literal} {text : String}

private theorem int_bare (chars : text.toList ≠ [] ∧ text.toList.all fun char => char.isDigit || char == '_') :
    Bare text := by
  refine .of_chars chars.1 fun char rest same odd => ?_
  have first := List.all_eq_true.mp chars.2 char (by rw [same]; exact List.mem_cons_self)
  rcases odd with rfl | rfl <;> simp at first

private theorem float_bare (read : (Numeral.ofChars? (text.toList.filter (· != '_'))).isSome = true) : Bare text := by
  refine .of_chars (fun empty => ?_) fun char rest same odd => ?_
  · rw [empty] at read
    cases read
  · have kept : (char != '_') = true := by
      rcases odd with rfl | rfl <;> rfl
    rw [same, List.filter_cons, if_pos kept, Numeral.unread _ odd] at read
    cases read

private theorem char_bare (marked : enclosed '\'' 3 text = true) : Bare text := by
  simp only [enclosed, Bool.and_eq_true, beq_iff_eq] at marked
  obtain ⟨rest, same⟩ := List.head?_eq_some_iff.mp marked.1.2
  exact ⟨'\'', rest, same, by decide, by decide⟩

theorem code_bare (plain : literal.kind ≠ .verbatim) (written : literal.code = .ok text) : Bare text := by
  obtain ⟨kind, given⟩ := literal
  cases kind with
  | verbatim => exact absurd rfl plain
  | int =>
    simp only [code] at written
    split at written
    next chars => cases written; exact int_bare chars
    next => cases written
  | float =>
    simp only [code] at written
    split at written
    next => cases written
    next read =>
      have bare := float_bare (by simpa [Option.isSome_iff_ne_none] using read)
      split at written
      next => cases written; exact bare
      next => cases written; exact bare.append ".0"
  | bool =>
    simp only [code] at written
    split at written
    next lower =>
      cases written
      rcases lower with same | same <;> rw [same]
      · exact .opening "true" rfl
      · exact .opening "false" rfl
    next => cases written
  | str =>
    simp only [code] at written
    split at written
    next =>
      cases written
      exact ((Bare.opening "SnString::from(" rfl).append given).append ")"
    next => cases written
  | char =>
    simp only [code] at written
    split at written
    next marked => cases written; exact char_bare marked
    next => cases written

end Literal

theorem DeclaredType.code_bare {tree : Tree} {text : String} (written : code tree = .ok text) : Bare text := by
  rw [code] at written
  simp only [except_bind_ok] at written
  obtain ⟨fields, _, _, _, base, _, written⟩ := written
  split at written
  next container _ named _ =>
    obtain ⟨element, _, written⟩ := except_bind_ok.mp written
    cases written
    unfold container? at named
    split at named <;> cases named
    all_goals exact (((Bare.opening _ rfl).append "<").append element).append ">"
  next => cases written
  next =>
    split at written
    next scalar named _ =>
      cases written
      unfold scalar? at named
      split at named <;> cases named
      all_goals exact .opening _ rfl
    next => cases written
    next => cases written

theorem Method.call_bare (method : Method) (arguments : List String) {receiver : String} (bare : Bare receiver) :
    Bare (method.call receiver arguments) := by
  have called := ((((bare.append ".").append method.name).append "(").append (", ".intercalate arguments)).append ")"
  unfold Method.call
  split
  · exact ((Bare.opening "(" rfl).append _).append " as i64)"
  · exact called

namespace Expr

open Lowering.Action (Answers)

/-- No text in the expression is carried over as it was given. -/
def Plain (expr : Expr) : Prop :=
  ∀ value, Part (literal value) expr → value.kind ≠ .verbatim

theorem Plain.part {inner outer : Expr} (plain : outer.Plain) (part : Part inner outer) : inner.Plain :=
  fun value inside => plain value (inside.trans part)

variable {signatures : Signatures}

/-- The text of an expression opens with that of its leftmost part or with a mark of its own. -/
theorem code_bare {expr : Expr} (plain : expr.Plain) {form : Form} {text : String}
    (answers : Answers (expr.code signatures form) text) : Bare text := by
  match expr with
  | literal value =>
    simp only [code] at answers
    exact Literal.code_bare (plain value .self) answers.of_lift
  | identifier name =>
    simp only [code] at answers
    obtain ⟨binding, _, answers⟩ := answers.of_bind
    obtain ⟨word, spelled, answers⟩ := answers.of_bind
    have bare := Name.code_bare spelled.of_lift
    cases form with
    | place => cases answers.of_pure; exact bare
    | value =>
      cases answers.of_pure
      split
      · exact ((Bare.opening "(*" rfl).append word).append ")"
      · exact bare
  | call function arguments =>
    simp only [code] at answers
    obtain ⟨_, _, answers⟩ := answers.of_bind
    obtain ⟨texts, _, answers⟩ := answers.of_bind
    obtain ⟨_, _, answers⟩ := answers.of_bind
    obtain ⟨name, spelled, answers⟩ := answers.of_bind
    cases answers.of_pure
    exact (((Name.code_bare spelled.of_lift).append "(").append _).append ")"
  | method receiver called marked arguments =>
    simp only [code] at answers
    obtain ⟨_, _, answers⟩ := answers.of_bind
    obtain ⟨_, _, answers⟩ := answers.of_bind
    obtain ⟨target, written, answers⟩ := answers.of_bind
    obtain ⟨texts, _, answers⟩ := answers.of_bind
    cases answers.of_pure
    exact Method.call_bare called texts (code_bare (plain.part (.inReceiver .self)) written)
  | field base name =>
    simp only [code] at answers
    obtain ⟨inner, written, answers⟩ := answers.of_bind
    obtain ⟨_, _, answers⟩ := answers.of_bind
    cases answers.of_pure
    exact ((code_bare (plain.part (.inField .self)) written).append ".").append _
  | index base position =>
    simp only [code] at answers
    obtain ⟨inner, written, answers⟩ := answers.of_bind
    obtain ⟨_, _, answers⟩ := answers.of_bind
    cases answers.of_pure
    exact (((code_bare (plain.part (.inIndexed .self)) written).append "[(").append _).append ") as usize]"
  | unary operator operand =>
    simp only [code] at answers
    obtain ⟨inner, _, answers⟩ := answers.of_bind
    cases answers.of_pure
    cases operator
    · exact (Bare.opening "-" rfl).append inner
    · exact (Bare.opening "!" rfl).append inner
  | chain first rest =>
    simp only [code] at answers
    obtain ⟨inner, written, answers⟩ := answers.of_bind
    obtain ⟨_, _, answers⟩ := answers.of_bind
    cases answers.of_pure
    exact (code_bare (plain.part (.inFirst .self)) written).append _
  | paren enclosed =>
    simp only [code] at answers
    obtain ⟨inner, _, answers⟩ := answers.of_bind
    cases answers.of_pure
    exact ((Bare.opening "(" rfl).append inner).append ")"
  | collection items =>
    simp only [code] at answers
    obtain ⟨texts, _, answers⟩ := answers.of_bind
    cases answers.of_pure
    exact ((Bare.opening "SnVector::from(" rfl).append (vector texts)).append ")"

end Expr

end Lowering
