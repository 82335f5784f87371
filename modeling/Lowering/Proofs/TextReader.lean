import Mathlib
import Lowering.Proofs.CallTokens
import Lowering.Proofs.ExprNodes

/-! A reader for the texts of expressions. It undoes what the writer puts around an expression wherever
that stands, so that a text can come from one expression only. -/

namespace Lowering

namespace TextReader

open Lowering.Tokens (isWord name? clear)

/-- What follows a mark in a text. -/
def strip (mark : String) (text : List Char) : Option (List Char) :=
  mark.toList.isPrefixOf? text

def operators : List BinaryOp :=
  [.add, .sub, .mul, .div, .rem, .eq, .ne, .lt, .le, .gt, .ge, .and, .or]

/-- The operator that a text goes on with. -/
def operator? (text : List Char) : Option (BinaryOp × List Char) :=
  operators.findSome? fun operator => (strip (" " ++ operator.symbol ++ " ") text).map (operator, ·)

/-- The marks before an argument, and how one that is stored is handed over with each of them. -/
def marks : List (String × Accessor) :=
  [("&mut *", .mutate), ("&mut ", .mutate), ("&*", .look), ("&", .look), ("", .move)]

def afterMark : List Char → Accessor × List Char
  | '&' :: 'm' :: 'u' :: 't' :: ' ' :: '*' :: rest => (.mutate, rest)
  | '&' :: 'm' :: 'u' :: 't' :: ' ' :: rest => (.mutate, rest)
  | '&' :: '*' :: rest => (.look, rest)
  | '&' :: rest => (.look, rest)
  | text => (.move, text)

section Readers

open Lowering.Expr

/-! Each reader gives an expression and the text behind it. It takes a number of steps that it may at most
go down, since a reader that follows another goes on behind it only if that one has read something. -/

mutual

/-- Reads operands with operators between them. -/
def expression : Nat → List Char → Option (Expr × List Char)
  | 0, _ => none
  | steps + 1, text => do
    let (first, text) ← operand steps text
    let (others, text) ← operands steps text
    return (joined first others, text)

def operands : Nat → List Char → Option (List (BinaryOp × Expr) × List Char)
  | 0, _ => none
  | steps + 1, text =>
    match operator? text with
    | none => return ([], text)
    | some (operator, text) => do
      let (next, text) ← operand steps text
      let (others, text) ← operands steps text
      return ((operator, next) :: others, text)

def operand : Nat → List Char → Option (Expr × List Char)
  | 0, _ => none
  | steps + 1, '-' :: text => do
    let (inner, text) ← operand steps text
    return (unary .negate inner, text)
  | steps + 1, '!' :: text => do
    let (inner, text) ← operand steps text
    return (unary .not inner, text)
  | steps + 1, text => do
    let (inner, text) ← base steps text
    postfixes steps inner text

/-- Reads what no postfix is part of. A reference that is followed and the length of a value have
parentheses of their own. -/
def base : Nat → List Char → Option (Expr × List Char)
  | 0, _ => none
  | _ + 1, '(' :: '*' :: text => do
    let name ← name? (text.takeWhile isWord)
    return (identifier name, ← strip ")" (text.dropWhile isWord))
  | steps + 1, '(' :: text => do
    let (inner, text) ← expression steps text
    match strip ")" text with
    | some text => return (paren inner, text)
    | none => return (method inner .length false [], ← strip ".length() as i64)" text)
  | steps + 1, text => ofWord steps (text.takeWhile isWord) (text.dropWhile isWord)

/-- Reads on behind a word. -/
def ofWord : Nat → List Char → List Char → Option (Expr × List Char)
  | 0, _, _ => none
  | steps + 1, word, text =>
    match name? word with
    | some name =>
      match strip "(" text with
      | none => return (identifier name, text)
      | some text => do
        let (given, text) ← arguments steps text
        return (call name given, ← strip ")" text)
    | none =>
      if word = "SnVector".toList then do
        let (items, text) ← arguments steps (← strip "::from(vec![" text)
        return (collection (items.map Prod.snd), ← strip "])" text)
      else
        let kind := if word = "true".toList ∨ word = "false".toList then .bool else .int
        return (literal ⟨kind, String.ofList word⟩, text)

/-- Reads fields, positions and methods behind an expression. -/
def postfixes : Nat → Expr → List Char → Option (Expr × List Char)
  | 0, _, _ => none
  | steps + 1, inner, '[' :: '(' :: text => do
    let (position, text) ← expression steps text
    postfixes steps (index inner position) (← strip ") as usize]" text)
  | steps + 1, inner, '.' :: text =>
    let word := text.takeWhile isWord
    let behind := text.dropWhile isWord
    match name? word with
    | some name => postfixes steps (field inner name) behind
    | none =>
      match Method.ofName? (String.ofList word) with
      | none | some .length => return (inner, '.' :: text)
      | some called => do
        let (given, text) ← arguments steps (← strip "(" behind)
        postfixes steps (method inner called called.mutates (given.map Prod.snd)) (← strip ")" text)
  | _ + 1, inner, text => return (inner, text)

def arguments : Nat → List Char → Option (List (Accessor × Expr) × List Char)
  | 0, _ => none
  | _ + 1, ')' :: text => return ([], ')' :: text)
  | _ + 1, ']' :: text => return ([], ']' :: text)
  | steps + 1, text => do
    let (first, text) ← argument steps text
    match strip ", " text with
    | none => return ([first], text)
    | some text =>
      let (others, text) ← arguments steps text
      return (first :: others, text)

/-- Reads what is handed over, with the accessor that shows in the text if it is stored. -/
def argument : Nat → List Char → Option ((Accessor × Expr) × List Char)
  | 0, _ => none
  | steps + 1, text => do
    let (accessor, text) := afterMark text
    let (value, text) ← expression steps text
    match strip " as usize" text, strip ".clone()" text, value with
    | some text, _, paren inner => return ((.look, inner), text)
    | _, some text, _ => return ((.copy, value), text)
    | _, _, _ => return ((if value.isStored then accessor else .look, value), text)

end

end Readers

/-- A reader gives this answer once it may take enough steps. -/
def Yields (read : Nat → Option α) (answer : α) : Prop :=
  ∃ least, ∀ steps, least ≤ steps → read steps = some answer

namespace Yields

theorem done {answer : α} : Yields (fun _ => some answer) answer :=
  ⟨0, fun _ _ => rfl⟩

theorem step {read : Nat → Option α} {answer : α} (later : Yields (fun steps => read (steps + 1)) answer) :
    Yields read answer := by
  obtain ⟨least, enough⟩ := later
  refine ⟨least + 1, fun steps large => ?_⟩
  obtain ⟨spare, rfl⟩ := Nat.exists_eq_add_of_le' large
  exact enough (spare + least) (Nat.le_add_left _ _)

theorem bind {first : Nat → Option α} {next : Nat → α → Option β} {middle : α} {answer : β}
    (begun : Yields first middle) (rest : Yields (fun steps => next steps middle) answer) :
    Yields (fun steps => first steps >>= next steps) answer := by
  obtain ⟨one, begun⟩ := begun
  obtain ⟨other, rest⟩ := rest
  refine ⟨max one other, fun steps large => ?_⟩
  change (first steps >>= next steps) = some answer
  rw [begun steps (by omega)]
  exact rest steps (by omega)

theorem of_eq {read other : Nat → Option α} {answer : α} (same : ∀ steps, read steps = other steps)
    (yields : Yields other answer) : Yields read answer := by
  rwa [funext same]

theorem unique {read : Nat → Option α} {one other : α} (first : Yields read one) (second : Yields read other) :
    one = other := by
  obtain ⟨least, enough⟩ := first
  obtain ⟨bound, large⟩ := second
  exact Option.some.inj ((enough (max least bound) (by omega)).symm.trans (large (max least bound) (by omega)))

end Yields

/-- The text begins, and with none of these characters. -/
def Begins (without text : List Char) : Prop :=
  ∃ char more, text = char :: more ∧ char ∉ without

/-- What no expression begins with. -/
def foreign : List Char :=
  ['&', 'm', '*', ')', ']']

/-- What ends a list of arguments. -/
def closers : List Char :=
  [')', ']']

/-- What operators begin with that stand before their operand. -/
def signs : List Char :=
  ['-', '!']

theorem Begins.append {without text : List Char} (begins : Begins without text) (rest : List Char) :
    Begins without (text ++ rest) := by
  obtain ⟨char, more, rfl, other⟩ := begins
  exact ⟨char, more ++ rest, rfl, other⟩

theorem Begins.mono {without fewer text : List Char} (begins : Begins without text) (within : fewer ⊆ without) :
    Begins fewer text := by
  obtain ⟨char, more, same, other⟩ := begins
  exact ⟨char, more, same, fun member => other (within member)⟩

section Marks

theorem strip_append (mark : String) (rest : List Char) : strip mark (mark.toList ++ rest) = some rest := by
  unfold strip
  induction mark.toList with
  | nil => rfl
  | cons char _ ih => simp [List.isPrefixOf?, ih]

/-- Another character rules a mark out. -/
theorem strip_eq_none (mark : String) {char : Char} {text : List Char} (begins : mark.toList.head? = some char)
    (other : text.head? ≠ some char) : strip mark text = none := by
  obtain ⟨more, same⟩ := List.head?_eq_some_iff.mp begins
  unfold strip
  rw [same]
  cases text with
  | nil => rfl
  | cons next _ => simp [List.isPrefixOf?, Ne.symm (by simpa using other : next ≠ char)]

theorem operator?_symbol (operator : BinaryOp) (text : List Char) :
    operator? ((" " ++ operator.symbol ++ " ").toList ++ text) = some (operator, text) := by
  cases operator <;> rfl

theorem afterMark_mark {mark : String} {accessor : Accessor} (one : (mark, accessor) ∈ marks) {text : List Char}
    (begins : Begins foreign text) : afterMark (mark.toList ++ text) = (accessor, text) := by
  obtain ⟨char, more, rfl, other⟩ := begins
  simp only [foreign, List.mem_cons, List.not_mem_nil, or_false, not_or] at other
  fin_cases one
  · rfl
  · change afterMark ('&' :: 'm' :: 'u' :: 't' :: ' ' :: char :: more) = _
    simp [afterMark, other]
  · rfl
  · change afterMark ('&' :: char :: more) = _
    simp [afterMark, other]
  · change afterMark (char :: more) = _
    simp [afterMark, other]

/-- A word ends where no further character of a word follows. -/
theorem takeWhile_word {word rest : List Char} (all : ∀ char ∈ word, isWord char = true)
    (edge : ∀ char ∈ rest.head?, isWord char = false) :
    (word ++ rest).takeWhile isWord = word ∧ (word ++ rest).dropWhile isWord = rest := by
  rw [List.takeWhile_append_of_pos all, List.dropWhile_append_of_pos all]
  cases rest with
  | nil => exact ⟨List.append_nil _, rfl⟩
  | cons char rest =>
    have other : ¬ isWord char = true := by simp [edge char rfl]
    rw [List.takeWhile_cons_of_neg other, List.dropWhile_cons_of_neg other]
    exact ⟨List.append_nil _, rfl⟩

end Marks

section Rules

open Lowering.Expr

variable {text middle rest : List Char} {inner value : Expr} {items : List (Accessor × Expr)}

theorem expression_yields {others : List (BinaryOp × Expr)} (first : Yields (operand · text) (inner, middle))
    (more : Yields (operands · middle) (others, rest)) : Yields (expression · text) (joined inner others, rest) := by
  refine .step ?_
  simp only [expression]
  exact .bind first (.bind more .done)

theorem operands_none (last : operator? text = none) : Yields (operands · text) ([], text) := by
  refine .step ?_
  simp only [operands, last]
  exact .done

theorem operands_cons (operator : BinaryOp) {others : List (BinaryOp × Expr)}
    (first : Yields (operand · text) (inner, middle)) (more : Yields (operands · middle) (others, rest)) :
    Yields (operands · ((" " ++ operator.symbol ++ " ").toList ++ text)) ((operator, inner) :: others, rest) := by
  refine .step ?_
  simp only [operands, operator?_symbol]
  exact .bind first (.bind more .done)

theorem operand_unary (operator : UnaryOp) (behind : Yields (operand · text) (inner, rest)) :
    Yields (operand · (operator.symbol.toList ++ text)) (unary operator inner, rest) := by
  refine .step ?_
  cases operator
  · change Yields (fun steps => operand (steps + 1) ('-' :: text)) _
    simp only [operand]
    exact .bind behind .done
  · change Yields (fun steps => operand (steps + 1) ('!' :: text)) _
    simp only [operand]
    exact .bind behind .done

theorem operand_term (begins : Begins signs text) (term : Yields (base · text) (inner, middle))
    (more : Yields (postfixes · inner middle) (value, rest)) : Yields (operand · text) (value, rest) := by
  refine .step ?_
  have reads : ∀ steps, operand (steps + 1) text =
      (base steps text >>= fun (inner, text) => postfixes steps inner text) := by
    intro steps
    obtain ⟨char, more, rfl, other⟩ := begins
    simp only [signs, List.mem_cons, List.not_mem_nil, or_false, not_or] at other
    simp [operand, other]
  simp only [reads]
  exact .bind term more

theorem base_deref {name : String} {word : List Char} (words : ∀ char ∈ word, isWord char = true)
    (named : name? word = some name) :
    Yields (base · ("(*".toList ++ (word ++ (")".toList ++ rest)))) (identifier name, rest) := by
  have edge : ∀ char ∈ (")".toList ++ rest).head?, isWord char = false := by
    rintro _ ⟨⟩
    rfl
  obtain ⟨front, behind⟩ := takeWhile_word words edge
  refine .step ?_
  change Yields (fun steps => base (steps + 1) ('(' :: '*' :: (word ++ (")".toList ++ rest)))) _
  simp only [base, front, behind, named, strip_append]
  exact .done

theorem base_open (begins : Begins foreign text) (steps : Nat) :
    base (steps + 1) ("(".toList ++ text) = (do
      let (inner, text) ← expression steps text
      match strip ")" text with
      | some text => return (paren inner, text)
      | none => return (method inner .length false [], ← strip ".length() as i64)" text)) := by
  obtain ⟨char, more, rfl, other⟩ := begins
  simp only [foreign, List.mem_cons, List.not_mem_nil, or_false, not_or] at other
  change base (steps + 1) ('(' :: char :: more) = _
  rw [base]
  intro _ same
  exact other.2.2.1 (List.cons.inj same).1

theorem base_paren (begins : Begins foreign text)
    (within : Yields (expression · text) (inner, ")".toList ++ rest)) :
    Yields (base · ("(".toList ++ text)) (paren inner, rest) := by
  refine .step (.of_eq (base_open begins) ?_)
  refine .bind within ?_
  simp only [strip_append]
  exact .done

theorem base_length (begins : Begins foreign text)
    (within : Yields (expression · text) (inner, ".length() as i64)".toList ++ rest)) :
    Yields (base · ("(".toList ++ text)) (method inner .length false [], rest) := by
  refine .step (.of_eq (base_open begins) ?_)
  refine .bind within ?_
  simp only [strip_append]
  exact .done

theorem base_word {word : List Char} (some : word ≠ []) (words : ∀ char ∈ word, isWord char = true)
    (edge : ∀ char ∈ text.head?, isWord char = false) (read : Yields (ofWord · word text) (value, rest)) :
    Yields (base · (word ++ text)) (value, rest) := by
  obtain ⟨front, behind⟩ := takeWhile_word words edge
  obtain ⟨char, more, rfl⟩ := List.exists_cons_of_ne_nil some
  have other : char ≠ '(' := by
    rintro rfl
    exact absurd (words _ List.mem_cons_self) (by decide)
  refine .step (.of_eq (fun steps => ?_) read)
  rw [List.cons_append] at front behind ⊢
  rw [base, front, behind]
  · intro _ same
    exact other (List.cons.inj same).1
  · intro _ same
    exact other (List.cons.inj same).1

theorem ofWord_identifier {name : String} {word : List Char} (named : name? word = some name)
    (away : clear text = true) : Yields (ofWord · word text) (identifier name, text) := by
  have stop : strip "(" text = none := by
    refine strip_eq_none _ rfl fun called => ?_
    rw [clear, called] at away
    cases away
  refine .step ?_
  simp only [ofWord, named, stop]
  exact .done

theorem ofWord_call {name : String} {word : List Char} (named : name? word = some name)
    (given : Yields (arguments · text) (items, ")".toList ++ rest)) :
    Yields (ofWord · word ("(".toList ++ text)) (call name items, rest) := by
  refine .step ?_
  simp only [ofWord, named, strip_append]
  refine .bind given ?_
  simp only [strip_append]
  exact .done

theorem ofWord_collection (given : Yields (arguments · text) (items, "])".toList ++ rest)) :
    Yields (ofWord · "SnVector".toList ("::from(vec![".toList ++ text)) (collection (items.map Prod.snd), rest) := by
  have unnamed : name? "SnVector".toList = none := rfl
  refine .step ?_
  simp only [ofWord, unnamed, strip_append, if_true]
  refine .bind .done (.bind given ?_)
  simp only [strip_append]
  exact .done

theorem ofWord_literal {word : List Char} {kind : LiteralKind} (unnamed : name? word = none) (other : word ≠ "SnVector".toList)
    (kinded : (if word = "true".toList ∨ word = "false".toList then .bool else .int) = kind) :
    Yields (ofWord · word text) (literal ⟨kind, String.ofList word⟩, text) := by
  refine .step ?_
  simp only [ofWord, unnamed, if_neg other, kinded]
  exact .done

theorem postfixes_index (within : Yields (expression · text) (value, ") as usize]".toList ++ middle))
    (more : Yields (postfixes · (index inner value) middle) (value', rest)) :
    Yields (postfixes · inner ("[(".toList ++ text)) (value', rest) := by
  refine .step ?_
  change Yields (fun steps => postfixes (steps + 1) inner ('[' :: '(' :: text)) _
  simp only [postfixes]
  refine .bind within ?_
  simp only [strip_append]
  exact more

theorem postfixes_field {name : String} {word : List Char} (words : ∀ char ∈ word, isWord char = true)
    (named : name? word = some name) (edge : ∀ char ∈ middle.head?, isWord char = false)
    (more : Yields (postfixes · (field inner name) middle) (value, rest)) :
    Yields (postfixes · inner (".".toList ++ (word ++ middle))) (value, rest) := by
  obtain ⟨front, behind⟩ := takeWhile_word words edge
  refine .step ?_
  change Yields (fun steps => postfixes (steps + 1) inner ('.' :: (word ++ middle))) _
  simp only [postfixes, front, behind, named]
  exact more

private theorem method_word (called : Method) (rest : List Char) :
    (called.name.toList ++ ("(".toList ++ rest)).takeWhile isWord = called.name.toList ∧
      (called.name.toList ++ ("(".toList ++ rest)).dropWhile isWord = "(".toList ++ rest ∧
      name? called.name.toList = none := by
  cases called <;> exact ⟨rfl, rfl, rfl⟩

theorem postfixes_method {called : Method} (other : called ≠ .length)
    (given : Yields (arguments · text) (items, ")".toList ++ middle))
    (more : Yields (postfixes · (method inner called called.mutates (items.map Prod.snd)) middle) (value, rest)) :
    Yields (postfixes · inner (".".toList ++ (called.name.toList ++ ("(".toList ++ text)))) (value, rest) := by
  obtain ⟨front, behind, unnamed⟩ := method_word called text
  refine .step ?_
  change Yields (fun steps => postfixes (steps + 1) inner ('.' :: (called.name.toList ++ ("(".toList ++ text)))) _
  simp only [postfixes, front, behind, unnamed, String.ofList_toList, Method.ofName?_name, strip_append]
  refine .bind .done (.bind given ?_)
  simp only [strip_append]
  exact .bind .done more

/-- Behind these characters no expression goes on. -/
theorem postfixes_stop (stop : ∀ char ∈ text.head?, char ≠ '[' ∧ char ≠ '.') :
    Yields (postfixes · inner text) (inner, text) := by
  refine .step (.of_eq (fun steps => ?_) .done)
  cases text with
  | nil => rfl
  | cons char more => simp [postfixes, stop char rfl]

theorem postfixes_clone : Yields (postfixes · inner (".clone()".toList ++ text)) (inner, ".clone()".toList ++ text) :=
  .step .done

theorem postfixes_length : Yields (postfixes · inner (".length()".toList ++ text)) (inner, ".length()".toList ++ text) :=
  .step .done

theorem arguments_none (closes : text.head? = some ')' ∨ text.head? = some ']') :
    Yields (arguments · text) ([], text) := by
  refine .step (.of_eq (fun steps => ?_) .done)
  rcases closes with head | head <;> (obtain ⟨more, rfl⟩ := List.head?_eq_some_iff.mp head; simp [arguments])

private theorem arguments_some {given : Accessor × Expr} (begins : Begins closers text)
    (one : Yields (argument · text) (given, middle))
    (more : Yields (fun steps => match strip ", " middle with
      | none => return ([given], middle)
      | some text => do
        let (others, text) ← arguments steps text
        return (given :: others, text)) (items, rest)) :
    Yields (arguments · text) (items, rest) := by
  have reads : ∀ steps, arguments (steps + 1) text = (do
      let (first, text) ← argument steps text
      match strip ", " text with
      | none => return ([first], text)
      | some text =>
        let (others, text) ← arguments steps text
        return (first :: others, text)) := by
    intro steps
    obtain ⟨char, more, rfl, other⟩ := begins
    simp only [closers, List.mem_cons, List.not_mem_nil, or_false, not_or] at other
    simp [arguments, other]
  exact .step (.of_eq reads (.bind one more))

theorem arguments_last {given : Accessor × Expr} (begins : Begins closers text)
    (one : Yields (argument · text) (given, rest)) (closes : rest.head? ≠ some ',') :
    Yields (arguments · text) ([given], rest) := by
  refine arguments_some begins one ?_
  simp only [strip_eq_none ", " rfl closes]
  exact .done

theorem arguments_cons {given : Accessor × Expr} (begins : Begins closers text)
    (one : Yields (argument · text) (given, ", ".toList ++ middle)) (others : Yields (arguments · middle) (items, rest)) :
    Yields (arguments · text) (given :: items, rest) := by
  refine arguments_some begins one ?_
  simp only [strip_append]
  exact .bind others .done

variable {mark : String} {accessor : Accessor}

theorem argument_plain (one : (mark, accessor) ∈ marks) (begins : Begins foreign text)
    (read : Yields (expression · text) (value, rest)) (stop : rest.head? ≠ some ' ' ∧ rest.head? ≠ some '.') :
    Yields (argument · (mark.toList ++ text)) ((if value.isStored then accessor else .look, value), rest) := by
  refine .step ?_
  simp only [argument, afterMark_mark one begins]
  refine .bind read ?_
  simp only [strip_eq_none " as usize" rfl stop.1, strip_eq_none ".clone()" rfl stop.2]
  exact .done

theorem argument_clone (one : (mark, accessor) ∈ marks) (begins : Begins foreign text)
    (read : Yields (expression · text) (value, ".clone()".toList ++ rest)) :
    Yields (argument · (mark.toList ++ text)) ((.copy, value), rest) := by
  have other : strip " as usize" (".clone()".toList ++ rest) = none := rfl
  refine .step ?_
  simp only [argument, afterMark_mark one begins]
  refine .bind read ?_
  simp only [other, strip_append]
  exact .done

theorem argument_position (begins : Begins foreign text)
    (read : Yields (expression · text) (paren value, " as usize".toList ++ rest)) :
    Yields (argument · text) ((.look, value), rest) := by
  have unmarked : afterMark text = (.move, text) :=
    afterMark_mark (by simp [marks] : ("", Accessor.move) ∈ marks) begins
  refine .step ?_
  simp only [argument, unmarked]
  refine .bind read ?_
  simp only [strip_append]
  exact .done

end Rules

end TextReader
end Lowering
