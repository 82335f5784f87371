import Mathlib
import Lowering.Proofs.LineLayout
import Lowering.Proofs.Outlines

/-! Outlines are laid out. The braces of every block stand where its depth is, whatever texts are in its
lines as long as each of them stays in its line. -/

namespace Lowering

open Lowering.Layout (flat leads level blocks Laid shift blocks_append blocks_inside shift_append shift_shift toList_indent)

namespace Outline

/-- Every text stays in its line and begins it. -/
def Neat (rows : List (Nat × String)) : Prop :=
  ∀ row ∈ rows, flat row.2 = true ∧ leads row.2 = true

variable {first last : List (Nat × String)} {depth outer : Nat}

theorem neat_append : Neat (first ++ last) ↔ Neat first ∧ Neat last :=
  List.forall_mem_append

theorem neat_deeper : Neat (deeper first) ↔ Neat first :=
  List.forall_mem_map

/-- The text behind the first alternative: each of the others behind the brace that closes the one before it. -/
def closing (alternatives : List (Option String × List Outline)) : String :=
  "\x7d" ++ String.join ((alternativeTexts alternatives).map (" else " ++ ·)) ++ "\n"

private theorem intercalate_join (mark first : String) (rest : List String) :
    mark.intercalate (first :: rest) = first ++ String.join (rest.map (mark ++ ·)) := by
  induction rest generalizing first with
  | nil => exact String.intercalate_singleton.trans String.append_empty.symm
  | cons next rest ih =>
    rw [String.intercalate_cons_cons, ih, List.map_cons, String.join_cons, String.append_assoc, String.append_assoc]

private theorem opening_break (text : String) : "\x7b\n" ++ text = "\x7b" ++ ("\n" ++ text) := by
  rw [← String.append_assoc]
  rfl

theorem choice_text (head : Option String) (body : List Outline) (rest : List (Option String × List Outline)) :
    (choice ((head, body) :: rest)).text =
      opening head ++ "\x7b" ++ ("\n" ++ (Layout.indent 1 (bodyText body) ++ closing rest)) := by
  rw [text, alternativeTexts, intercalate_join, closing]
  simp only [String.append_assoc, opening_break]

theorem closing_cons (head : Option String) (body : List Outline) (rest : List (Option String × List Outline)) :
    closing ((head, body) :: rest) =
      "\x7d else " ++ opening head ++ "\x7b" ++ ("\n" ++ (Layout.indent 1 (bodyText body) ++ closing rest)) := by
  have marks : ∀ text : String, "\x7d" ++ (" else " ++ text) = "\x7d else " ++ text := by
    intro text
    rw [← String.append_assoc]
    rfl
  rw [closing, alternativeTexts, List.map_cons, String.join_cons, closing]
  simp only [String.append_assoc, opening_break, marks]

section Laying

private theorem blocks_flat {text : String} (even : flat text = true) (depth : Nat) :
    blocks depth text.toList = some depth :=
  blocks_inside fun char member => (Layout.flat_iff.mp even char member).2

private theorem even_of_flat {text : String} (even : flat text = true) : '\n' ∉ text.toList :=
  fun member => (Layout.flat_iff.mp even '\n' member).1 rfl

/-- What leads into a block is a line that opens it. -/
private theorem opening_begins {head : Option String} (neat : Neat (head.toList.map (0, ·))) :
    flat (opening head) = true ∧
      ∃ char line, (opening head ++ "\x7b").toList = char :: line ∧ char ≠ ' ' ∧ char ≠ '\x7d' := by
  cases head with
  | none => exact ⟨rfl, '\x7b', [], rfl, by decide, by decide⟩
  | some head =>
    obtain ⟨even, begins⟩ := neat (0, head) List.mem_cons_self
    obtain ⟨char, first, other⟩ := (Option.any_eq_true ..).mp begins
    obtain ⟨line, same⟩ := List.head?_eq_some_iff.mp first
    refine ⟨Layout.flat_append even rfl, char, line ++ [' '] ++ ['\x7b'], ?_, bne_iff_ne.mp other, ?_⟩
    · rw [opening, String.toList_append, String.toList_append, same]
      rfl
    · exact (Layout.flat_iff.mp even char (by rw [same]; exact List.mem_cons_self)).2.2

private theorem row_laid {row behind : String} {middle last : Nat} (even : '\n' ∉ row.toList)
    (begins : ∃ char line, row.toList = char :: line ∧ char ≠ ' ' ∧ level outer char = depth)
    (steps : blocks outer row.toList = some middle) (goes : Laid middle (shift depth true behind.toList) last) :
    Laid outer (shift depth true (row ++ ("\n" ++ behind)).toList) last := by
  obtain ⟨char, line, same, other, stands⟩ := begins
  have ends : (row ++ ("\n" ++ behind)).toList = char :: line ++ '\n' :: behind.toList := by
    rw [String.toList_append, String.toList_append, same]
    rfl
  rw [same] at even steps
  rw [ends]
  exact .moved even other steps depth stands goes

/-- A body is laid out a level deeper, up to where it is closed. -/
private theorem indent_laid {body close : String} (inside : ∀ depth, Laid depth (shift depth true body.toList) depth)
    (closes : Laid (depth + 1) (shift depth true close.toList) depth) :
    Laid (depth + 1) (shift depth true (Layout.indent 1 body ++ close).toList) depth := by
  rw [String.toList_append, toList_indent, shift_append, shift_shift, (inside 1).breaks]
  exact (inside (depth + 1)).append closes

mutual

/-- The text of an outline is laid out behind any blocks that are open, moved as far as these. -/
theorem text_laid :
    (outline : Outline) → Neat outline.rows → ∀ depth, Laid depth (shift depth true outline.text.toList) depth
  | line text, neat, depth => by
    rw [rows] at neat
    obtain ⟨even, begins⟩ := neat (0, text) List.mem_cons_self
    obtain ⟨char, first, other⟩ := (Option.any_eq_true ..).mp begins
    obtain ⟨line, same⟩ := List.head?_eq_some_iff.mp first
    have closed : flat (text ++ ";") = true := Layout.flat_append even rfl
    have stands : level depth char = depth :=
      if_neg (Layout.flat_iff.mp even char (by rw [same]; exact List.mem_cons_self)).2.2
    have ends : text ++ ";\n" = text ++ ";" ++ ("\n" ++ "") := by
      rw [String.append_empty, String.append_assoc]
      rfl
    rw [Outline.text, ends]
    have begins : (text ++ ";").toList = char :: (line ++ [';']) := by
      rw [String.toList_append, same]
      rfl
    refine row_laid (even_of_flat closed) ⟨char, _, begins, bne_iff_ne.mp other, stands⟩ ?_ (.done depth)
    exact blocks_flat closed depth
  | choice [], neat, depth => by
    rw [text, alternativeTexts, String.intercalate_nil]
    exact .blank (.done depth)
  | choice ((head, body) :: rest), neat, depth => by
    rw [rows, alternativeRows, neat_append, neat_append, neat_deeper] at neat
    obtain ⟨headed, inside, later⟩ := neat
    obtain ⟨even, char, line, same, other, opened⟩ := opening_begins headed
    rw [choice_text]
    have block := indent_laid (body_laid body inside) (closing_laid rest later depth)
    refine row_laid ?_ ⟨char, line, same, other, if_neg opened⟩ ?_ block
    · simp [even_of_flat even]
    · rw [String.toList_append, blocks_append, blocks_flat even]
      rfl

theorem closing_laid :
    (alternatives : List (Option String × List Outline)) → Neat (alternativeRows alternatives) → ∀ depth,
    Laid (depth + 1) (shift depth true (closing alternatives).toList) depth
  | [], neat, depth => by
    have ends : closing [] = "\x7d" ++ ("\n" ++ "") := by
      rw [closing, alternativeTexts]
      rfl
    rw [ends]
    exact row_laid (by decide) ⟨'\x7d', [], rfl, by decide, rfl⟩ rfl (.done depth)
  | (head, body) :: rest, neat, depth => by
    rw [alternativeRows, neat_append, neat_append, neat_deeper] at neat
    obtain ⟨headed, inside, later⟩ := neat
    obtain ⟨even, _⟩ := opening_begins headed
    have begins : ("\x7d else " ++ opening head ++ "\x7b").toList =
        '\x7d' :: (" else " ++ opening head ++ "\x7b").toList := by
      simp
    rw [closing_cons]
    have block := indent_laid (body_laid body inside) (closing_laid rest later depth)
    refine row_laid ?_ ⟨'\x7d', _, begins, by decide, rfl⟩ ?_ block
    · simp [even_of_flat even]
    · rw [String.toList_append, blocks_append, String.toList_append, blocks_append]
      have closes : blocks (depth + 1) "\x7d else ".toList = some depth := rfl
      rw [closes, Option.bind_some, blocks_flat even]
      rfl

theorem body_laid : (outlines : List Outline) → Neat (bodyRows outlines) → ∀ depth,
    Laid depth (shift depth true (bodyText outlines).toList) depth
  | [], neat, depth => by
    rw [bodyText]
    exact .done depth
  | outline :: rest, neat, depth => by
    rw [bodyRows, neat_append] at neat
    rw [bodyText, String.toList_append, shift_append, text_breaks]
    exact (text_laid outline neat.1 depth).append (body_laid rest neat.2 depth)

end

/-- An outline alone is laid out from the left edge. -/
theorem laid {outline : Outline} (neat : Neat outline.rows) : Laid 0 outline.text.toList 0 := by
  have moved := text_laid outline neat 0
  rwa [Layout.shift_zero] at moved

end Laying

end Outline

end Lowering
