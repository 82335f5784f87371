import Mathlib
import Lowering.Expr.Code
import Lowering.Proofs.TextReader

/-! Texts in which a reader finds an expression again. What is built from such texts in the way of the
writer is such a text in turn. -/

namespace Lowering

open Lowering.Tokens (isWord name? clear)
open Lowering.TextReader

namespace Expr

/-- No word and no postfix goes on here. -/
structure Pauses (rest : List Char) : Prop where
  away : clear rest = true
  leaves : ∀ inner, Yields (postfixes · inner rest) (inner, rest)

/-- No expression goes on here. -/
structure Halts (rest : List Char) : Prop extends Pauses rest where
  last : operator? rest = none

theorem Pauses.of_head {rest : List Char} (away : clear rest = true)
    (stop : ∀ char ∈ rest.head?, char ≠ '[' ∧ char ≠ '.') : Pauses rest :=
  ⟨away, fun _ => postfixes_stop stop⟩

theorem pauses_operator (operator : BinaryOp) (rest : List Char) :
    Pauses ((" " ++ operator.symbol ++ " ").toList ++ rest) := by
  refine .of_head ?_ ?_
  · cases operator <;> rfl
  · cases operator <;> (rintro _ ⟨⟩; decide)

theorem halts_end : Halts [] :=
  ⟨.of_head rfl nofun, rfl⟩

theorem halts_clone (rest : List Char) : Halts (".clone()".toList ++ rest) :=
  ⟨⟨rfl, fun _ => postfixes_clone⟩, rfl⟩

theorem halts_length (rest : List Char) : Halts (".length() as i64)".toList ++ rest) :=
  ⟨⟨rfl, fun _ => postfixes_length⟩, rfl⟩

theorem halts_usize (rest : List Char) : Halts (" as usize".toList ++ rest) :=
  ⟨.of_head rfl (by rintro _ ⟨⟩; decide), rfl⟩

/-- An argument or the last of them ends here. -/
def Closes (rest : List Char) : Prop :=
  ∃ char ∈ [')', ']', ','], rest.head? = some char

theorem Closes.halts {rest : List Char} (closes : Closes rest) : Halts rest := by
  obtain ⟨char, one, head⟩ := closes
  obtain ⟨more, rfl⟩ := List.head?_eq_some_iff.mp head
  fin_cases one
  all_goals exact ⟨.of_head rfl (by rintro _ ⟨⟩; decide), rfl⟩

/-- The text is that of a term: whatever postfixes follow apply to the expression. -/
structure ShowsTerm (expr : Expr) (text : String) : Prop where
  begins : Begins foreign text.toList
  reads : ∀ {rest answer}, clear rest = true → Yields (postfixes · expr rest) answer →
    Yields (operand · (text.toList ++ rest)) answer

structure ShowsOperand (expr : Expr) (text : String) : Prop where
  begins : Begins foreign text.toList
  reads : ∀ {rest}, Pauses rest → Yields (operand · (text.toList ++ rest)) (expr, rest)

structure Shows (expr : Expr) (text : String) : Prop where
  begins : Begins foreign text.toList
  reads : ∀ {rest}, Halts rest → Yields (expression · (text.toList ++ rest)) (expr, rest)

def ShowsAt : Level → Expr → String → Prop
  | .base | .term => ShowsTerm
  | .operand => ShowsOperand
  | .expression => Shows

variable {expr inner : Expr} {text : String} {level : Level}

theorem ShowsTerm.operand (term : ShowsTerm expr text) : ShowsOperand expr text :=
  ⟨term.begins, fun pauses => term.reads pauses.away (pauses.leaves expr)⟩

theorem ShowsOperand.expression (operand : ShowsOperand expr text) : Shows expr text :=
  ⟨operand.begins, fun halts => expression_yields (operand.reads halts.toPauses) (operands_none halts.last)⟩

theorem ShowsTerm.at (term : ShowsTerm expr text) : ShowsAt level expr text := by
  cases level with
  | base | term => exact term
  | operand => exact term.operand
  | expression => exact term.operand.expression

theorem ShowsOperand.at (operand : ShowsOperand expr text) (late : level = .operand ∨ level = .expression) :
    ShowsAt level expr text := by
  obtain rfl | rfl := late
  · exact operand
  · exact operand.expression

theorem ShowsTerm.of_base (begins : Begins (foreign ++ signs) text.toList)
    (reads : ∀ rest, clear rest = true → Yields (base · (text.toList ++ rest)) (expr, rest)) : ShowsTerm expr text := by
  refine ⟨begins.mono (List.subset_append_left ..), fun away more => ?_⟩
  exact operand_term ((begins.mono (List.subset_append_right ..)).append _) (reads _ away) more

theorem paren_shows (within : Shows inner text) : ShowsTerm (paren inner) ("(" ++ text ++ ")") := by
  refine .of_base ⟨'(', _, by simp only [String.toList_append, List.append_assoc]; rfl, by decide⟩ fun rest _ => ?_
  simp only [String.toList_append, List.append_assoc]
  exact base_paren (within.begins.append _) (within.reads (Closes.halts ⟨')', by simp, rfl⟩))

theorem length_shows (receiver : Shows inner text) :
    ShowsTerm (method inner .length false []) ("(" ++ text ++ ".length() as i64)") := by
  refine .of_base ⟨'(', _, by simp only [String.toList_append, List.append_assoc]; rfl, by decide⟩ fun rest _ => ?_
  simp only [String.toList_append, List.append_assoc]
  exact base_length (receiver.begins.append _) (receiver.reads (halts_length _))

section Words

variable {name word : String} {rest : List Char}

private theorem code_word (spelled : Name.code name = .ok word) :
    ∃ more, word.toList = 's' :: more ∧ name? word.toList = some name ∧ ∀ char ∈ word.toList, isWord char = true := by
  obtain ⟨rfl, words⟩ := Tokens.code_words spelled
  rw [String.toList_append]
  refine ⟨_, rfl, congrArg some (String.ofList_toList), fun char member => ?_⟩
  rcases List.mem_append.mp member with mark | inName
  · exact List.all_eq_true.mp (rfl : "sn_".toList.all isWord = true) char mark
  · exact words char inName

theorem edge_of_clear (away : clear rest = true) : ∀ char ∈ rest.head?, isWord char = false := by
  intro char head
  rw [Option.mem_def] at head
  simp only [clear, head, Option.all_some, Bool.and_eq_true, Bool.not_eq_true'] at away
  exact away.1

theorem name_shows (spelled : Name.code name = .ok word) : ShowsTerm (identifier name) word := by
  obtain ⟨more, same, named, words⟩ := code_word spelled
  refine .of_base ⟨'s', more, same, by decide⟩ fun rest away => ?_
  exact base_word (by simp [same]) words (edge_of_clear away) (ofWord_identifier named away)

theorem deref_shows (spelled : Name.code name = .ok word) : ShowsTerm (identifier name) ("(*" ++ word ++ ")") := by
  obtain ⟨more, same, named, words⟩ := code_word spelled
  refine .of_base ⟨'(', _, by simp only [String.toList_append, List.append_assoc]; rfl, by decide⟩ fun rest _ => ?_
  simp only [String.toList_append, List.append_assoc]
  exact base_deref words named

theorem word_shows {kind : LiteralKind} (begins : Begins (foreign ++ signs) word.toList)
    (words : word.toList.all isWord = true) (unnamed : name? word.toList = none) (other : word ≠ "SnVector")
    (kinded : (if word.toList = "true".toList ∨ word.toList = "false".toList then .bool else .int) = kind) :
    ShowsTerm (literal ⟨kind, word⟩) word := by
  refine .of_base begins fun rest away => ?_
  obtain ⟨char, more, same, _⟩ := begins
  have read : Yields (ofWord · word.toList rest) (literal ⟨kind, String.ofList word.toList⟩, rest) :=
    ofWord_literal unnamed (fun same => other (String.toList_inj.mp same)) kinded
  rw [String.ofList_toList] at read
  exact base_word (by simp [same]) (List.all_eq_true.mp words) (edge_of_clear away) read

theorem field_shows (term : ShowsTerm inner text) (spelled : Name.code name = .ok word) :
    ShowsTerm (field inner name) (text ++ "." ++ word) := by
  obtain ⟨more, same, named, words⟩ := code_word spelled
  simp only [String.append_assoc]
  refine ⟨by rw [String.toList_append]; exact term.begins.append _, fun away behind => ?_⟩
  simp only [String.toList_append, List.append_assoc]
  exact term.reads rfl (postfixes_field words named (edge_of_clear away) behind)

theorem index_shows {position : Expr} {place : String} (term : ShowsTerm inner text) (within : Shows position place) :
    ShowsTerm (index inner position) (text ++ "[(" ++ place ++ ") as usize]") := by
  simp only [String.append_assoc]
  refine ⟨by rw [String.toList_append]; exact term.begins.append _, fun away behind => ?_⟩
  simp only [String.toList_append, List.append_assoc]
  refine term.reads rfl (postfixes_index (within.reads ?_) behind)
  exact Closes.halts ⟨')', by simp, rfl⟩

theorem unary_shows (operator : UnaryOp) (operand : ShowsOperand inner text) :
    ShowsOperand (unary operator inner) (operator.symbol ++ text) := by
  refine ⟨?_, fun pauses => ?_⟩
  · cases operator
    · exact ⟨'-', _, by rw [String.toList_append]; rfl, by decide⟩
    · exact ⟨'!', _, by rw [String.toList_append]; rfl, by decide⟩
  · rw [String.toList_append, List.append_assoc]
    exact operand_unary operator (operand.reads pauses)

end Words

section Lists

/-- The text is that of an argument, which a reader finds in it with its accessor. -/
structure Passes (given : Accessor × Expr) (text : String) : Prop where
  begins : Begins closers text.toList
  reads : ∀ {rest}, Closes rest → Yields (argument · (text.toList ++ rest)) (given, rest)

variable {mark : String} {accessor : Accessor}

private theorem begins_mark (one : (mark, accessor) ∈ marks) {text : List Char} (begins : Begins foreign text) :
    Begins closers (mark.toList ++ text) := by
  have ampersand : ∀ more, Begins closers ('&' :: more) := fun more => ⟨'&', more, rfl, by decide⟩
  fin_cases one
  · exact ampersand _
  · exact ampersand _
  · exact ampersand _
  · exact ampersand _
  · exact begins.mono (by decide)

private theorem passes_plain (one : (mark, accessor) ∈ marks) (shows : Shows expr text) :
    Passes (if expr.isStored then accessor else .look, expr) (mark ++ text) := by
  refine ⟨by rw [String.toList_append]; exact begins_mark one shows.begins, fun closes => ?_⟩
  have stop := closes
  obtain ⟨char, among, head⟩ := stop
  rw [String.toList_append, List.append_assoc]
  refine argument_plain one (shows.begins.append _) (shows.reads closes.halts) ?_
  fin_cases among <;> simp [head]

theorem passes_stored (stored : expr.isStored = true) (one : (mark, accessor) ∈ marks) (shows : Shows expr text) :
    Passes (accessor, expr) (mark ++ text) := by
  have passes := passes_plain one shows
  rwa [if_pos stored] at passes

theorem passes_temporary (temporary : expr.isStored = false) (one : (mark, accessor) ∈ marks) (shows : Shows expr text) :
    Passes (.look, expr) (mark ++ text) := by
  have passes := passes_plain one shows
  rwa [if_neg (by simp [temporary])] at passes

theorem passes_clone (one : (mark, accessor) ∈ marks) (shows : Shows expr text) :
    Passes (.copy, expr) (mark ++ (text ++ ".clone()")) := by
  refine ⟨?_, fun closes => ?_⟩
  · rw [String.toList_append, String.toList_append]
    exact begins_mark one (shows.begins.append _)
  · simp only [String.toList_append, List.append_assoc]
    exact argument_clone one (shows.begins.append _) (shows.reads (halts_clone _))

theorem passes_unmarked (shows : Shows expr text) : Passes (if expr.isStored then .move else .look, expr) text := by
  have passes := passes_plain (by simp [marks] : ("", Accessor.move) ∈ marks) shows
  rwa [String.empty_append] at passes

theorem passes_position (shows : Shows expr text) : Passes (.look, expr) ("(" ++ text ++ ") as usize") := by
  have enclosed : Shows (paren expr) ("(" ++ text ++ ")") := (paren_shows shows).operand.expression
  have whole : "(" ++ text ++ ") as usize" = "(" ++ text ++ ")" ++ " as usize" := by
    simp only [String.append_assoc]
    rfl
  rw [whole]
  refine ⟨?_, fun closes => ?_⟩
  · rw [String.toList_append]
    exact (enclosed.begins.mono (by decide)).append _
  · rw [String.toList_append, List.append_assoc]
    exact argument_position (enclosed.begins.append _) (enclosed.reads (halts_usize _))

/-- The texts of arguments with commas between them are read in their order. -/
theorem arguments_intercalate {given : List (Accessor × Expr)} {texts : List String} (each : List.Forall₂ Passes given texts)
    {rest : List Char} (closes : rest.head? = some ')' ∨ rest.head? = some ']') :
    Yields (arguments · ((", ".intercalate texts).toList ++ rest)) (given, rest) := by
  have closing : Closes rest := by
    rcases closes with head | head
    · exact ⟨')', by simp, head⟩
    · exact ⟨']', by simp, head⟩
  induction each with
  | nil => exact arguments_none closes
  | cons first others ih =>
    cases others with
    | nil =>
      rw [String.intercalate_singleton]
      refine arguments_last (first.begins.append _) (first.reads closing) ?_
      rcases closes with head | head <;> simp [head]
    | cons next _ =>
      rw [String.intercalate_cons_cons]
      simp only [String.toList_append, List.append_assoc]
      exact arguments_cons (first.begins.append _) (first.reads ⟨',', by simp, rfl⟩) ih

/-- The accessors that show in the texts of items say nothing of the items. -/
theorem exists_accessors {exprs : List Expr} {texts : List String}
    (each : List.Forall₂ (fun expr text => ∃ accessor, Passes (accessor, expr) text) exprs texts) :
    ∃ given, List.Forall₂ Passes given texts ∧ given.map Prod.snd = exprs := by
  induction each with
  | nil => exact ⟨[], .nil, rfl⟩
  | cons first _ ih =>
    obtain ⟨accessor, first⟩ := first
    obtain ⟨given, others, rfl⟩ := ih
    exact ⟨_, .cons first others, rfl⟩

theorem call_shows {name word : String} {given : List (Accessor × Expr)} {texts : List String}
    (spelled : Name.code name = .ok word) (each : List.Forall₂ Passes given texts) :
    ShowsTerm (call name given) (word ++ "(" ++ ", ".intercalate texts ++ ")") := by
  obtain ⟨more, same, named, words⟩ := code_word spelled
  simp only [String.append_assoc]
  refine .of_base ⟨'s', _, by rw [String.toList_append, same]; rfl, by decide⟩ fun rest _ => ?_
  simp only [String.toList_append, List.append_assoc]
  refine base_word (by simp [same]) words ?_ (ofWord_call named (arguments_intercalate each (.inl rfl)))
  rintro _ ⟨⟩
  rfl

theorem collection_shows {items : List Expr} {texts : List String}
    (each : List.Forall₂ (fun expr text => ∃ accessor, Passes (accessor, expr) text) items texts) :
    ShowsTerm (collection items) ("SnVector::from(" ++ vector texts ++ ")") := by
  obtain ⟨given, passed, rfl⟩ := exists_accessors each
  refine .of_base ⟨'S', _, by simp only [String.toList_append, List.append_assoc]; rfl, by decide⟩ fun rest _ => ?_
  have within : Yields (arguments · ((", ".intercalate texts).toList ++ ("])".toList ++ rest)))
      (given, "])".toList ++ rest) := arguments_intercalate passed (.inr rfl)
  have read := base_word (by decide) (List.all_eq_true.mp (rfl : "SnVector".toList.all isWord = true))
    (by rintro _ ⟨⟩; rfl) (ofWord_collection within)
  simp only [vector, String.toList_append, List.append_assoc]
  exact read

theorem method_shows {called : Method} {items : List Expr} {texts : List String} (term : ShowsTerm inner text)
    (other : called ≠ .length) (each : List.Forall₂ (fun expr text => ∃ accessor, Passes (accessor, expr) text) items texts) :
    ShowsTerm (method inner called called.mutates items)
      (text ++ "." ++ called.name ++ "(" ++ ", ".intercalate texts ++ ")") := by
  obtain ⟨given, passed, rfl⟩ := exists_accessors each
  simp only [String.append_assoc]
  refine ⟨by rw [String.toList_append]; exact term.begins.append _, fun away behind => ?_⟩
  simp only [String.toList_append, List.append_assoc]
  exact term.reads rfl (postfixes_method other (arguments_intercalate passed (.inl rfl)) behind)

end Lists

end Expr

end Lowering
