import Mathlib
import Lowering.Proofs.Composition
import Lowering.Proofs.WellFormedParts

/-! What literals bring into a line. Numbers and truth values always stay in it, and so does quoted text
or text without a kind if it has no line break and no brace. -/

namespace Lowering

open Lowering.Layout (flat flat_iff leads flat_append leads_append)

/-- A character that breaks a line, opens or closes a block, or moves a line. -/
def isLayout (char : Char) : Bool :=
  char == '\n' || char == '\x7b' || char == '\x7d' || char == ' '

namespace Numeral

variable {odd : Char} {text : List Char}

theorem isLayout_cases (odd : Char) (moves : isLayout odd = true) :
    odd = '\n' ∨ odd = '\x7b' ∨ odd = '\x7d' ∨ odd = ' ' := by
  simpa [isLayout, or_assoc] using moves

private theorem not_mem_digits (moves : isLayout odd = true) (text : List Char) :
    odd ∉ text.takeWhile Char.isDigit := by
  intro member
  have digit := List.all_eq_true.mp List.all_takeWhile odd member
  obtain rfl | rfl | rfl | rfl := isLayout_cases odd moves <;> cases digit

private theorem not_mem_signed (moves : isLayout odd = true) (rest : odd ∉ (signed text).2) : odd ∉ text := by
  unfold signed at rest
  intro member
  split at rest
  next =>
    rcases List.mem_cons.mp member with rfl | inRest
    · cases moves
    · exact rest inRest
  next =>
    rcases List.mem_cons.mp member with rfl | inRest
    · cases moves
    · exact rest inRest
  next => exact rest member

private theorem not_mem_exponent (moves : isLayout odd = true) (read : (exponent? text).isSome = true) :
    odd ∉ text := by
  cases text with
  | nil => exact List.not_mem_nil
  | cons mark rest =>
    simp only [exponent?] at read
    split at read
    next marked =>
      split at read
      next digits =>
        have later : odd ∉ rest := by
          refine not_mem_signed moves ?_
          intro member
          have digit := List.all_eq_true.mp digits.2 odd member
          obtain rfl | rfl | rfl | rfl := isLayout_cases odd moves <;> cases digit
        intro member
        rcases List.mem_cons.mp member with rfl | inRest
        · rcases marked with rfl | rfl <;> cases moves
        · exact later inRest
      next => cases read
    next => cases read

private theorem not_mem_decimal (moves : isLayout odd = true) (read : (decimal? text).isSome = true) : odd ∉ text := by
  intro member
  have cut (part : List Char) (inside : odd ∈ part) : odd ∈ part.dropWhile Char.isDigit := by
    rw [← @List.takeWhile_append_dropWhile _ Char.isDigit part] at inside
    exact (List.mem_append.mp inside).resolve_left (not_mem_digits moves part)
  have later := cut text member
  dsimp only [decimal?] at read
  split at read
  next behind point =>
    rw [point] at later
    rcases List.mem_cons.mp later with rfl | inPlaces
    · cases moves
    · split at read
      next => cases read
      next => exact not_mem_exponent moves (by simpa using read) (cut behind inPlaces)
  next =>
    split at read
    next => cases read
    next => exact not_mem_exponent moves (by simpa using read) later

/-- No numeral has a character of the layout in it. -/
theorem not_mem (moves : isLayout odd = true) (read : (ofChars? text).isSome = true) : odd ∉ text := by
  have lower : odd.toLower = odd := by
    obtain rfl | rfl | rfl | rfl := isLayout_cases odd moves <;> rfl
  have unnamed (word : String) (foreign : odd ∉ word.toList)
      (same : String.ofList ((signed text).2.map Char.toLower) = word) : odd ∉ (signed text).2 := by
    intro member
    refine foreign ?_
    rw [← same, String.toList_ofList, ← lower]
    exact List.mem_map_of_mem member
  refine not_mem_signed moves ?_
  simp only [ofChars?] at read
  split at read
  next named =>
    rcases named with same | same
    · exact unnamed "inf" (by obtain rfl | rfl | rfl | rfl := isLayout_cases odd moves <;> decide) same
    · exact unnamed "infinity" (by obtain rfl | rfl | rfl | rfl := isLayout_cases odd moves <;> decide) same
  next =>
    split at read
    next same => exact unnamed "nan" (by obtain rfl | rfl | rfl | rfl := isLayout_cases odd moves <;> decide) same
    next => exact not_mem_decimal moves (by simpa using read)

end Numeral

namespace Literal

variable {value : Literal} {text : String}

/-- The text of the literal has no line break and no brace, and does not begin with a space. Only of a
literal that holds text is this to be asked. -/
def Inline (value : Literal) : Prop :=
  value.kind = .verbatim ∨ value.kind = .str ∨ value.kind = .char →
    (∀ char ∈ value.text.toList, char ≠ '\n' ∧ char ≠ '\x7b' ∧ char ≠ '\x7d') ∧ value.text.toList.head? ≠ some ' '

private theorem of_unmoved (some : text.toList ≠ []) (unmoved : ∀ char, isLayout char = true → char ∉ text.toList) :
    flat text = true ∧ leads text = true := by
  constructor
  · refine flat_iff.mpr ?_
    intro char member
    refine ⟨?_, ?_, ?_⟩
    all_goals
      intro same
      subst same
      exact unmoved _ rfl member
  · obtain ⟨char, rest, same⟩ := List.exists_cons_of_ne_nil some
    have other : char ≠ ' ' := by
      intro space
      subst space
      exact unmoved _ rfl (by rw [same]; exact List.mem_cons_self)
    simpa [leads, same] using other

private theorem int_inline (chars : text.toList ≠ [] ∧ text.toList.all fun char => char.isDigit || char == '_') :
    flat text = true ∧ leads text = true := by
  refine of_unmoved chars.1 ?_
  intro char moves member
  have digit := List.all_eq_true.mp chars.2 char member
  obtain rfl | rfl | rfl | rfl := Numeral.isLayout_cases char moves <;> cases digit

private theorem float_inline (read : (Numeral.ofChars? (text.toList.filter (· != '_'))).isSome = true) :
    flat text = true ∧ leads text = true := by
  refine of_unmoved ?_ ?_
  · intro none
    rw [none] at read
    cases read
  · intro char moves member
    have kept : (char != '_') = true := by
      obtain rfl | rfl | rfl | rfl := Numeral.isLayout_cases char moves <;> rfl
    exact Numeral.not_mem moves read (List.mem_filter.mpr ⟨member, kept⟩)

/-- The text that a literal is carried over as stays in its line and does not move it. -/
theorem code_inline (formed : value.WellFormed) (inline : value.Inline) (written : value.code = .ok text) :
    flat text = true ∧ leads text = true := by
  obtain ⟨kind, given⟩ := value
  cases kind with
  | verbatim =>
    cases written
    obtain ⟨even, begins⟩ := inline (.inl rfl)
    refine ⟨flat_iff.mpr even, ?_⟩
    cases same : given.toList with
    | nil =>
      have visible := formed rfl
      simp [same] at visible
    | cons char rest =>
      have other : char ≠ ' ' := by simpa [same] using begins
      simpa [leads, same] using other
  | int =>
    simp only [code] at written
    split at written
    next chars => cases written; exact int_inline chars
    next => cases written
  | float =>
    simp only [code] at written
    split at written
    next => cases written
    next read =>
      have inline := float_inline (by simpa [Option.isSome_iff_ne_none] using read)
      split at written
      next => cases written; exact inline
      next => cases written; exact ⟨flat_append inline.1 rfl, leads_append inline.2 ".0"⟩
  | bool =>
    simp only [code] at written
    split at written
    next lower =>
      cases written
      rcases lower with same | same <;> rw [same] <;> exact ⟨rfl, rfl⟩
    next => cases written
  | str =>
    simp only [code] at written
    split at written
    next =>
      cases written
      obtain ⟨even, _⟩ := inline (.inr (.inl rfl))
      exact ⟨flat_append (flat_append rfl (flat_iff.mpr even)) rfl, leads_append (leads_append rfl given) ")"⟩
    next => cases written
  | char =>
    simp only [code] at written
    split at written
    next marked =>
      cases written
      obtain ⟨even, begins⟩ := inline (.inr (.inr rfl))
      refine ⟨flat_iff.mpr even, ?_⟩
      simp only [enclosed, Bool.and_eq_true, beq_iff_eq] at marked
      rw [leads, marked.1.2]
      rfl
    next => cases written

end Literal

end Lowering
