import Mathlib
import Lowering.Proofs.ExprParts
import Lowering.Proofs.ExprSpelling
import Lowering.Proofs.ShownExprs

/-! The text of an expression tells the expression. Every grouping of the source and every way of handing
a stored value over shows in the text, since a reader finds the expression in it again. -/

namespace Lowering

open Lowering.Action (Answers)
open Lowering.Tokens (isWord name? clear)
open Lowering.TextReader

namespace Literal

/-- Whether something is true is written in any case and comes out in lower case. -/
def reduced (literal : Literal) : Literal :=
  match literal.kind with
  | .bool => ⟨.bool, lowerAscii literal.text⟩
  | _ => literal

/-- A truth value, or a whole number that begins with a digit. -/
def Simple (literal : Literal) : Prop :=
  literal.kind = .bool ∨
    literal.kind = .int ∧ ∃ digit, literal.text.toList.head? = some digit ∧ digit.isDigit = true

end Literal

namespace Expr

mutual

/-- The expression without what its text need not tell: the case of truth values, the accessors of
temporary arguments, and whether a chain that is an argument stands in parentheses. -/
def reduced : Expr → Expr
  | literal value => literal value.reduced
  | identifier name => identifier name
  | call function arguments => call function (reducedArguments arguments)
  | method receiver called marked arguments => method receiver.reduced called marked (reducedList arguments)
  | field base name => field base.reduced name
  | index base position => index base.reduced position.reduced
  | unary operator operand => unary operator operand.reduced
  | chain first rest => chain first.reduced (reducedOperands rest)
  | paren inner => paren inner.reduced
  | collection items => collection (reducedList items)

def reducedArguments : List (Accessor × Expr) → List (Accessor × Expr)
  | [] => []
  | (accessor, value) :: arguments =>
    (if value.isStored then accessor else .look, if value.isChain then paren value.reduced else value.reduced) ::
      reducedArguments arguments

def reducedOperands : List (BinaryOp × Expr) → List (BinaryOp × Expr)
  | [] => []
  | (operator, operand) :: rest => (operator, operand.reduced) :: reducedOperands rest

def reducedList : List Expr → List Expr
  | [] => []
  | expr :: rest => expr.reduced :: reducedList rest

end

theorem reduced_root? (expr : Expr) : expr.reduced.root? = expr.root? := by
  match expr with
  | field base _ | index base _ | paren base =>
    rw [reduced, root?, root?]
    exact reduced_root? base
  | identifier _ => rw [reduced]
  | literal _ | call _ _ | method _ _ _ _ | unary _ _ | chain _ _ | collection _ =>
    rw [reduced]
    rfl

theorem reduced_isStored (expr : Expr) : expr.reduced.isStored = expr.isStored := by
  rw [isStored, isStored, reduced_root?]

/-- All literals in the expression are truth values and whole numbers that begin with a digit. -/
def Simple (expr : Expr) : Prop :=
  ∀ value, Part (literal value) expr → value.Simple

theorem Simple.part {inner outer : Expr} (simple : outer.Simple) (part : Part inner outer) : inner.Simple :=
  fun value inside => simple value (inside.trans part)

private theorem truth_shows {given text : String} (written : Literal.code ⟨.bool, given⟩ = .ok text) :
    ShowsTerm (literal ⟨.bool, lowerAscii given⟩) text := by
  simp only [Literal.code] at written
  split at written
  next lower =>
    cases written
    rcases lower with same | same
    all_goals
      rw [same]
      exact word_shows ⟨_, _, rfl, by decide⟩ rfl rfl (by decide) (by decide)
  next => cases written

private theorem number_shows {given text : String} {digit : Char} (head : given.toList.head? = some digit)
    (isDigit : digit.isDigit = true) (written : Literal.code ⟨.int, given⟩ = .ok text) :
    ShowsTerm (literal ⟨.int, given⟩) text := by
  have unlike : ∀ word : List Char, word.head?.any (fun char => !char.isDigit) = true → given.toList ≠ word := by
    intro word letter same
    rw [← same, head, Option.any_some, isDigit] at letter
    cases letter
  simp only [Literal.code] at written
  split at written
  next chars =>
    cases written
    obtain ⟨more, same⟩ := List.head?_eq_some_iff.mp head
    refine word_shows ⟨digit, more, same, ?_⟩ ?_ ?_ ?_ ?_
    · intro member
      have letters : ∀ char ∈ foreign ++ signs, char.isDigit = false := by simp [foreign, signs]
      exact Bool.false_ne_true ((letters digit member).symm.trans isDigit)
    · refine List.all_eq_true.mpr fun char member => ?_
      rcases Bool.or_eq_true_iff.mp (List.all_eq_true.mp chars.2 char member) with number | mark
      · simp [isWord, Char.isAlphanum, number]
      · simp [isWord, mark]
    · unfold name?
      split
      next named => exact absurd named (unlike _ rfl)
      next => rfl
    · exact fun same => unlike "SnVector".toList rfl (congrArg String.toList same)
    · exact if_neg (not_or.mpr ⟨unlike "true".toList rfl, unlike "false".toList rfl⟩)
  next => cases written

theorem literal_shows {value : Literal} {text : String} (simple : value.Simple) (written : value.code = .ok text) :
    ShowsTerm (literal value.reduced) text := by
  obtain ⟨kind, given⟩ := value
  rcases simple with rfl | ⟨rfl, digit, head, isDigit⟩
  · exact truth_shows written
  · exact number_shows head isDigit written

section Forms

/-! The ways of using an expression show it, together with what they do with a stored value. -/

variable {expr : Expr} {code : Form → Action String} {text : String}

theorem handOver_mark (expected : Accessor) :
    ∃ mark accessor, (mark, accessor) ∈ marks ∧ ∀ value, handOver expected value = mark ++ value := by
  cases expected with
  | look => exact ⟨"&", .look, by simp [marks], fun _ => rfl⟩
  | mutate => exact ⟨"&mut ", .mutate, by simp [marks], fun _ => rfl⟩
  | move | copy => exact ⟨"", .move, by simp [marks], fun _ => String.empty_append.symm⟩

theorem isChain_of_stored (stored : expr.isStored = true) : expr.isChain = false := by
  cases expr with
  | chain => cases stored
  | _ => rfl

variable (each : ∀ form inner, Answers (code form) inner → Shows expr.reduced inner)

private theorem named_shows {name word : String} (same : expr = identifier name) (spelled : Name.code name = .ok word) :
    expr.isStored = true ∧ Shows expr.reduced word := by
  rw [same, reduced]
  exact ⟨rfl, (name_shows spelled).operand.expression⟩

include each

theorem Lent.passes (lent : Lent expr code text) : Passes (.look, expr.reduced) text := by
  cases lent with
  | referent same spelled =>
    obtain ⟨stored, shows⟩ := named_shows same spelled
    exact passes_stored ((reduced_isStored expr).trans stored) (by simp [marks]) shows
  | place stored written =>
    exact passes_stored ((reduced_isStored expr).trans stored) (by simp [marks]) (each _ _ written)
  | value temporary written =>
    have passes := passes_unmarked (each _ _ written)
    rwa [reduced_isStored, temporary] at passes

theorem Owned.passes (owned : Owned expr code text) : ∃ accessor, Passes (accessor, expr.reduced) text := by
  cases owned with
  | duplicate _ written =>
    have passes := passes_clone (by simp [marks] : ("", Accessor.move) ∈ marks) (each _ _ written)
    rw [String.empty_append] at passes
    exact ⟨_, passes⟩
  | value _ written => exact ⟨_, passes_unmarked (each _ _ written)⟩

/-- An argument is read with its accessor if it is stored, and in parentheses if it is a chain. -/
theorem Passed.passes {expected accessor : Accessor} (passed : Passed expr code expected accessor text) :
    Passes (if expr.isStored then accessor else .look, if expr.isChain then paren expr.reduced else expr.reduced) text := by
  obtain ⟨mark, shown, one, hands⟩ := handOver_mark expected
  have stays : expr.isStored = true → Passes (accessor, expr.reduced) text →
      Passes (if expr.isStored then accessor else .look, if expr.isChain then paren expr.reduced else expr.reduced) text := by
    intro stored passes
    rwa [if_pos stored, if_neg (by simp [isChain_of_stored stored])]
  cases passed with
  | temporary temporary written =>
    have loose : expr.reduced.isStored = false := (reduced_isStored expr).trans temporary
    rw [hands, if_neg (by simp [temporary])]
    split
    · exact passes_temporary loose one (paren_shows (each _ _ written)).operand.expression
    · exact passes_temporary loose one (each _ _ written)
  | duplicate stored written =>
    rw [hands] at stays ⊢
    exact stays stored (passes_clone one (each _ _ written))
  | lent stored lent => exact stays stored (lent.passes each)
  | referent same spelled =>
    obtain ⟨stored, shows⟩ := named_shows same spelled
    exact stays stored (passes_stored ((reduced_isStored expr).trans stored) (by simp [marks]) shows)
  | place stored written =>
    exact stays stored (passes_stored ((reduced_isStored expr).trans stored) (by simp [marks]) (each _ _ written))
  | moved same spelled =>
    obtain ⟨stored, shows⟩ := named_shows same spelled
    have passes := passes_unmarked shows
    rw [if_pos ((reduced_isStored expr).trans stored)] at passes
    exact stays stored passes

theorem argument_passes {operand : Method.Operand} (answers : Answers (Method.argument operand expr code) text) :
    ∃ accessor, Passes (accessor, expr.reduced) text := by
  obtain ⟨inner, written, rfl⟩ | owned := argument_given answers
  · exact ⟨_, passes_position (each _ _ written)⟩
  · exact owned.passes each

end Forms

theorem checkCall_marked {called : Method} {marked : Bool} {arguments : Nat}
    (checked : called.checkCall marked arguments = .ok ()) : marked = called.mutates := by
  unfold Method.checkCall at checked
  split at checked
  · cases checked
  · cases marked <;> cases change : called.mutates <;> simp_all

variable {signatures : Signatures}

mutual

/-- The text of an expression shows the expression at every level where it may stand, in whatever form and
scope it is written out. -/
theorem code_shows {form : Form} : (expr : Expr) → (level : Level) → expr.WellFormed level → expr.Simple →
    {text : String} → Answers (expr.code signatures form) text → ShowsAt level expr.reduced text
  | literal value, level, formed, simple, text, answers => by
    simp only [code] at answers
    rw [reduced]
    exact (literal_shows (simple value .self) answers.of_lift).at
  | identifier name, level, formed, simple, text, answers => by
    simp only [code] at answers
    obtain ⟨binding, _, answers⟩ := answers.of_bind
    obtain ⟨word, spelled, answers⟩ := answers.of_bind
    rw [reduced]
    cases form with
    | place =>
      cases answers.of_pure
      exact (name_shows spelled.of_lift).at
    | value =>
      cases answers.of_pure
      split
      · exact (deref_shows spelled.of_lift).at
      · exact (name_shows spelled.of_lift).at
  | call function arguments, level, formed, simple, text, answers => by
    simp only [code] at answers
    rw [WellFormed] at formed
    obtain ⟨signature, found, answers⟩ := answers.of_bind
    obtain ⟨texts, listed, answers⟩ := answers.of_bind
    obtain ⟨_, _, answers⟩ := answers.of_bind
    obtain ⟨name, spelled, answers⟩ := answers.of_bind
    cases answers.of_pure
    have counted := (Signatures.forCall_ok.mp found.of_lift).2
    have each := argumentCodes_pass arguments formed (fun argument one => simple.part (.inArgument one .self)) counted listed
    rw [reduced]
    exact (call_shows spelled.of_lift each).at
  | method receiver called marked arguments, level, formed, simple, text, answers => by
    simp only [code] at answers
    rw [WellFormed] at formed
    obtain ⟨_, checked, answers⟩ := answers.of_bind
    obtain ⟨_, _, answers⟩ := answers.of_bind
    obtain ⟨target, written, answers⟩ := answers.of_bind
    obtain ⟨texts, listed, answers⟩ := answers.of_bind
    cases answers.of_pure
    have counted := checkCall_length checked.of_lift
    have each := operandCodes_pass arguments formed.2.2 (fun operand one => simple.part (.inOperand one .self)) counted listed
    have term : ShowsTerm receiver.reduced target :=
      code_shows receiver .term formed.2.1 (simple.part (.inReceiver .self)) written
    rw [reduced, checkCall_marked checked.of_lift]
    by_cases length : called = .length
    · subst length
      cases List.length_eq_zero_iff.mp counted.symm
      cases each
      have called : Method.length.call target [] = "(" ++ target ++ ".length() as i64)" := by
        simp only [Method.call, String.append_assoc]
        rfl
      rw [called]
      exact (length_shows term.operand.expression).at
    · have same : called.call target texts = target ++ "." ++ called.name ++ "(" ++ ", ".intercalate texts ++ ")" := by
        cases called <;> first | rfl | exact absurd rfl length
      rw [same]
      exact (method_shows term length each).at
  | field base name, level, formed, simple, text, answers => by
    simp only [code] at answers
    rw [WellFormed] at formed
    obtain ⟨inner, written, answers⟩ := answers.of_bind
    obtain ⟨word, spelled, answers⟩ := answers.of_bind
    cases answers.of_pure
    have term : ShowsTerm base.reduced inner := code_shows base .term formed.2 (simple.part (.inField .self)) written
    rw [reduced]
    exact (field_shows term spelled.of_lift).at
  | index base position, level, formed, simple, text, answers => by
    simp only [code] at answers
    rw [WellFormed] at formed
    obtain ⟨inner, written, answers⟩ := answers.of_bind
    obtain ⟨place, positioned, answers⟩ := answers.of_bind
    cases answers.of_pure
    have term : ShowsTerm base.reduced inner := code_shows base .term formed.2.1 (simple.part (.inIndexed .self)) written
    have within : Shows position.reduced place :=
      code_shows position .expression formed.2.2 (simple.part (.inPosition .self)) positioned
    rw [reduced]
    exact (index_shows term within).at
  | unary operator operand, level, formed, simple, text, answers => by
    simp only [code] at answers
    rw [WellFormed] at formed
    obtain ⟨inner, written, answers⟩ := answers.of_bind
    cases answers.of_pure
    have behind : ShowsOperand operand.reduced inner :=
      code_shows operand .operand formed.2 (simple.part (.inUnary .self)) written
    rw [reduced]
    exact (unary_shows operator behind).at formed.1
  | chain first rest, level, formed, simple, text, answers => by
    simp only [code] at answers
    rw [WellFormed] at formed
    obtain ⟨rfl, formed, some, others⟩ := formed
    obtain ⟨inner, written, answers⟩ := answers.of_bind
    obtain ⟨later, listed, answers⟩ := answers.of_bind
    cases answers.of_pure
    have begins : ShowsOperand first.reduced inner :=
      code_shows first .operand formed (simple.part (.inFirst .self)) written
    have continues := chainCode_shows rest others (fun operand one => simple.part (.inRest one .self)) listed
    rw [reduced]
    refine ⟨by rw [String.toList_append]; exact begins.begins.append _, fun halts => ?_⟩
    obtain ⟨pauses, reads⟩ := continues _ halts
    rw [String.toList_append, List.append_assoc]
    have joins : joined first.reduced (reducedOperands rest) = chain first.reduced (reducedOperands rest) := by
      cases rest with
      | nil => exact absurd rfl some
      | cons _ _ => rfl
    rw [← joins]
    exact expression_yields (begins.reads pauses) reads
  | paren inner, level, formed, simple, text, answers => by
    simp only [code] at answers
    rw [WellFormed] at formed
    obtain ⟨enclosed, written, answers⟩ := answers.of_bind
    cases answers.of_pure
    have within : Shows inner.reduced enclosed :=
      code_shows inner .expression formed (simple.part (.inParen .self)) written
    rw [reduced]
    exact (paren_shows within).at
  | collection items, level, formed, simple, text, answers => by
    simp only [code] at answers
    rw [WellFormed] at formed
    obtain ⟨texts, listed, answers⟩ := answers.of_bind
    cases answers.of_pure
    have each := ownedCodes_pass items formed (fun item one => simple.part (.inItem one .self)) listed
    rw [reduced]
    exact (collection_shows each).at

theorem argumentCodes_pass {function : String} : (arguments : List (Accessor × Expr)) → argumentsWellFormed arguments →
    (∀ argument ∈ arguments, argument.2.Simple) → {parameters : List (String × Accessor)} → {texts : List String} →
    parameters.length = arguments.length → Answers (argumentCodes signatures function parameters arguments) texts →
    List.Forall₂ Passes (reducedArguments arguments) texts
  | [], _, _, parameters, texts, counted, answers => by
    cases List.length_eq_zero_iff.mp counted
    cases answers.of_pure
    exact .nil
  | (accessor, value) :: arguments, formed, simple, parameters, texts, counted, answers => by
    obtain ⟨parameter, parameters, rfl⟩ := List.exists_cons_of_length_eq_add_one counted
    obtain ⟨first, later⟩ := List.forall_mem_cons.mp simple
    rw [argumentsWellFormed] at formed
    simp only [argumentCodes] at answers
    obtain ⟨text, passed, answers⟩ := answers.of_bind
    obtain ⟨others, listed, same⟩ := answers.of_bind
    cases same.of_pure
    have passes := (pass_passed passed).passes fun form inner => code_shows value .expression formed.1 first
    exact .cons passes (argumentCodes_pass arguments formed.2 later (by simpa using counted) listed)

theorem operandCodes_pass : (arguments : List Expr) → allWellFormed arguments → (∀ argument ∈ arguments, argument.Simple) →
    {operands : List Method.Operand} → {texts : List String} → operands.length = arguments.length →
    Answers (operandCodes signatures operands arguments) texts →
    List.Forall₂ (fun expr text => ∃ accessor, Passes (accessor, expr) text) (reducedList arguments) texts
  | [], _, _, operands, texts, counted, answers => by
    cases List.length_eq_zero_iff.mp counted
    cases answers.of_pure
    exact .nil
  | value :: arguments, formed, simple, operands, texts, counted, answers => by
    obtain ⟨operand, operands, rfl⟩ := List.exists_cons_of_length_eq_add_one counted
    obtain ⟨first, later⟩ := List.forall_mem_cons.mp simple
    rw [allWellFormed] at formed
    simp only [operandCodes] at answers
    obtain ⟨text, written, answers⟩ := answers.of_bind
    obtain ⟨others, listed, same⟩ := answers.of_bind
    cases same.of_pure
    have passes := argument_passes (fun form inner => code_shows value .expression formed.1 first) written
    exact .cons passes (operandCodes_pass arguments formed.2 later (by simpa using counted) listed)

theorem chainCode_shows : (rest : List (BinaryOp × Expr)) → operandsWellFormed rest → (∀ operand ∈ rest, operand.2.Simple) →
    {text : String} → Answers (chainCode signatures rest) text → (behind : List Char) → Halts behind →
    Pauses (text.toList ++ behind) ∧ Yields (operands · (text.toList ++ behind)) (reducedOperands rest, behind)
  | [], _, _, text, answers, behind, halts => by
    cases answers.of_pure
    exact ⟨halts.toPauses, operands_none halts.last⟩
  | (operator, operand) :: rest, formed, simple, text, answers, behind, halts => by
    obtain ⟨first, later⟩ := List.forall_mem_cons.mp simple
    rw [operandsWellFormed] at formed
    simp only [chainCode] at answers
    obtain ⟨inner, written, answers⟩ := answers.of_bind
    obtain ⟨others, listed, same⟩ := answers.of_bind
    cases same.of_pure
    obtain ⟨pauses, reads⟩ := chainCode_shows rest formed.2 later listed behind halts
    have next : ShowsOperand operand.reduced inner := code_shows operand .operand formed.1 first written
    rw [String.toList_append, String.toList_append, List.append_assoc, List.append_assoc]
    exact ⟨pauses_operator operator _, operands_cons operator (next.reads pauses) reads⟩

theorem ownedCodes_pass : (items : List Expr) → allWellFormed items → (∀ item ∈ items, item.Simple) → {texts : List String} →
    Answers (ownedCodes signatures items) texts →
    List.Forall₂ (fun expr text => ∃ accessor, Passes (accessor, expr) text) (reducedList items) texts
  | [], _, _, texts, answers => by
    cases answers.of_pure
    exact .nil
  | item :: items, formed, simple, texts, answers => by
    obtain ⟨first, later⟩ := List.forall_mem_cons.mp simple
    rw [allWellFormed] at formed
    simp only [ownedCodes] at answers
    obtain ⟨text, written, answers⟩ := answers.of_bind
    obtain ⟨others, listed, same⟩ := answers.of_bind
    cases same.of_pure
    have passes := (own_owned written).passes fun form inner => code_shows item .expression formed.1 first
    exact .cons passes (ownedCodes_pass items formed.2 later listed)

end

/-- Two expressions that can be read and come out with the same text are the same, apart from the case of
truth values, the accessors of temporary arguments and parentheses directly around a chain that is an
argument. The signatures and scopes that they are written out in play no part in it. -/
theorem text_unambiguous {other : Signatures} {form form' : Form} {tree tree' : Tree} {one two : Expr} {text : String}
    (read : ofTree tree = .ok one) (read' : ofTree tree' = .ok two) (simple : one.Simple) (simple' : two.Simple)
    (written : Answers (one.code signatures form) text) (written' : Answers (two.code other form') text) :
    one.reduced = two.reduced := by
  have formed : one.WellFormed .expression := (reads_iff.mp (ofTree_iff.mp read)).1
  have formed' : two.WellFormed .expression := (reads_iff.mp (ofTree_iff.mp read')).1
  have first : Shows one.reduced text := code_shows one .expression formed simple written
  have second : Shows two.reduced text := code_shows two .expression formed' simple' written'
  exact congrArg Prod.fst ((first.reads halts_end).unique (second.reads halts_end))

section Sample

private def sum : Expr :=
  .chain (.literal ⟨.int, "1"⟩) [(.add, .literal ⟨.int, "2"⟩)]

/-- The same call twice, with everything different that its text does not tell. -/
private def loosely : Expr :=
  .call "f" [(.copy, sum), (.look, .literal ⟨.bool, "TRUE"⟩)]

private def strictly : Expr :=
  .call "f" [(.look, .paren sum), (.move, .literal ⟨.bool, "true"⟩)]

private def summing : Signatures :=
  ⟨[("f", ⟨[("count", .look), ("flag", .move)], true⟩)]⟩

private theorem read_back {expr : Expr} (formed : expr.WellFormed .expression) : ofTree expr.tree = .ok expr :=
  ofTree_iff.mpr (reads_standard.mpr formed)

private theorem sum_simple : sum.Simple := by
  intro value part
  cases part with
  | inFirst part =>
    cases part
    exact .inr ⟨rfl, '1', rfl, rfl⟩
  | inRest one part =>
    fin_cases one
    cases part
    exact .inr ⟨rfl, '2', rfl, rfl⟩

private theorem loosely_simple : loosely.Simple := by
  intro value part
  cases part with
  | inArgument one part =>
    fin_cases one
    · exact sum_simple value part
    · cases part
      exact .inl rfl

private theorem strictly_simple : strictly.Simple := by
  intro value part
  cases part with
  | inArgument one part =>
    fin_cases one
    · cases part with
      | inParen part => exact sum_simple value part
    · cases part
      exact .inl rfl

theorem sample_text_unambiguous : Answers (loosely.code summing .value) "sn_f(&(1 + 2), true)" ∧
    Answers (strictly.code summing .value) "sn_f(&(1 + 2), true)" ∧ loosely ≠ strictly ∧
    loosely.reduced = strictly.reduced := by
  have read : ofTree loosely.tree = .ok loosely := read_back (by simp [loosely, sum, WellFormed, argumentsWellFormed,
    operandsWellFormed, Literal.WellFormed])
  have read' : ofTree strictly.tree = .ok strictly := read_back (by simp [strictly, sum, WellFormed, argumentsWellFormed,
    operandsWellFormed, Literal.WellFormed])
  have written : Answers (loosely.code summing .value) "sn_f(&(1 + 2), true)" := ⟨⟨.initial, []⟩, _, by cbv⟩
  have written' : Answers (strictly.code summing .value) "sn_f(&(1 + 2), true)" := ⟨⟨.initial, []⟩, _, by cbv⟩
  refine ⟨written, written', ?_, text_unambiguous read read' loosely_simple strictly_simple written written'⟩
  simp [loosely, strictly]

end Sample

end Expr

end Lowering
