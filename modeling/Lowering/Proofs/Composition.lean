import Mathlib
import Lowering.Proofs.CallTokens
import Lowering.Proofs.ExprParts

/-! What the texts in a line are composed of: the texts of literals, as they are written out, and marks
and names between them. Whatever holds of these and of texts put together holds of every expression. -/

namespace Lowering

open Lowering.Action (Answers)

namespace Layout

/-- The text stays in its line and leaves all blocks as they are. -/
def flat (text : String) : Bool :=
  text.toList.all fun char => char != '\n' && char != '\x7b' && char != '\x7d'

/-- The text begins with something other than a space. -/
def leads (text : String) : Bool :=
  text.toList.head?.any (· != ' ')

variable {first last text : String}

theorem flat_iff : flat text = true ↔ ∀ char ∈ text.toList, char ≠ '\n' ∧ char ≠ '\x7b' ∧ char ≠ '\x7d' := by
  simp [flat, and_assoc]

theorem flat_append (start : flat first = true) (rest : flat last = true) : flat (first ++ last) = true := by
  rw [flat, String.toList_append, List.all_append]
  exact Bool.and_eq_true_iff.mpr ⟨start, rest⟩

theorem leads_append (start : leads first = true) (last : String) : leads (first ++ last) = true := by
  obtain ⟨char, begins, other⟩ := (Option.any_eq_true ..).mp start
  rw [leads, String.toList_append, List.head?_append, begins]
  exact other

/-- Words stay in their line, and so do the brackets of types. -/
private theorem flat_of_words (each : ∀ char ∈ text.toList, Tokens.isWord char = true ∨ char = '<' ∨ char = '>') :
    flat text = true := by
  refine flat_iff.mpr ?_
  intro char member
  refine ⟨?_, ?_, ?_⟩
  all_goals
    intro same
    subst same
    exact absurd (each _ member) (by decide)

theorem word_flat {name : String} (written : Name.code name = .ok text) : flat text = true ∧ leads text = true := by
  obtain ⟨rfl, words⟩ := Tokens.code_words written
  have even : flat name = true := flat_of_words fun char member => .inl (words char member)
  exact ⟨flat_append rfl even, leads_append rfl name⟩

theorem type_flat {tree : Tree} (written : DeclaredType.code tree = .ok text) : flat text = true :=
  flat_of_words (Tokens.type_words tree text written)

end Layout

namespace Expr

open Lowering.Layout (flat leads)

/-- The expressions that an expression is put together from, in the order of its text. -/
def parts : Expr → List Expr
  | literal _ | identifier _ => []
  | call _ arguments => arguments.map Prod.snd
  | method receiver _ _ arguments => receiver :: arguments
  | field base _ => [base]
  | index base position => [base, position]
  | unary _ operand => [operand]
  | chain first rest => first :: rest.map Prod.snd
  | paren inner => [inner]
  | collection items => items

theorem Part.of_parts {inner part outer : Expr} (one : part ∈ outer.parts) (within : Part inner part) :
    Part inner outer := by
  cases outer with
  | literal value => cases one
  | identifier name => cases one
  | call function arguments =>
    obtain ⟨argument, member, rfl⟩ := List.mem_map.mp one
    exact .inArgument member within
  | method receiver called marked arguments =>
    rcases List.mem_cons.mp one with rfl | member
    · exact .inReceiver within
    · exact .inOperand member within
  | field base name => cases List.mem_singleton.mp one; exact .inField within
  | index base position =>
    rcases List.mem_cons.mp one with rfl | member
    · exact .inIndexed within
    · cases List.mem_singleton.mp member; exact .inPosition within
  | unary operator operand => cases List.mem_singleton.mp one; exact .inUnary within
  | chain first rest =>
    rcases List.mem_cons.mp one with rfl | later
    · exact .inFirst within
    · obtain ⟨operand, member, rfl⟩ := List.mem_map.mp later
      exact .inRest member within
  | paren enclosed => cases List.mem_singleton.mp one; exact .inParen within
  | collection items => exact .inItem one within

theorem Part.eq_or_in_parts {inner outer : Expr} (part : Part inner outer) :
    inner = outer ∨ ∃ one ∈ outer.parts, Part inner one := by
  cases part with
  | self => exact .inl rfl
  | inArgument one within => exact .inr ⟨_, List.mem_map_of_mem one, within⟩
  | inReceiver within | inFirst within => exact .inr ⟨_, List.mem_cons_self, within⟩
  | inOperand one within => exact .inr ⟨_, List.mem_cons_of_mem _ one, within⟩
  | inField within | inUnary within | inParen within => exact .inr ⟨_, List.mem_singleton_self _, within⟩
  | inIndexed within => exact .inr ⟨_, List.mem_cons_self, within⟩
  | inPosition within => exact .inr ⟨_, List.mem_cons_of_mem _ (List.mem_singleton_self _), within⟩
  | inRest one within => exact .inr ⟨_, List.mem_cons_of_mem _ (List.mem_map_of_mem one), within⟩
  | inItem one within => exact .inr ⟨_, one, within⟩

/-- The text is composed of what these expressions are written out as, in their order, and of marks. The
first mark does not begin with a space, so neither does the text unless a literal does. -/
inductive Composed : List Expr → String → Prop where
  | mark (text) (even : flat text = true) (begins : leads text = true) : Composed [] text
  | literal {value text} (written : value.code = .ok text) : Composed [literal value] text
  | within {expr text} (compound : ∀ value, expr ≠ .literal value) (parts : Composed expr.parts text) : Composed [expr] text
  | behind {exprs text} (start : Composed exprs text) (mark : String) (even : flat mark = true) :
    Composed exprs (text ++ mark)
  | append {first last before after} (start : Composed first before) (rest : Composed last after) :
    Composed (first ++ last) (before ++ after)

namespace Composed

variable {expr : Expr} {exprs : List Expr} {text : String}

theorem word {name : String} (written : Name.code name = .ok text) : Composed [] text :=
  .mark text (Layout.word_flat written).1 (Layout.word_flat written).2

theorem opening (mark : String) (even : flat mark = true) (begins : leads mark = true) (rest : Composed exprs text) :
    Composed exprs (mark ++ text) :=
  .append (.mark mark even begins) rest

theorem enclosed (mark : String) (even : flat mark = true) (begins : leads mark = true) (rest : Composed exprs text)
    (close : String) (closing : flat close = true) : Composed exprs (mark ++ text ++ close) :=
  .behind (rest.opening mark even begins) close closing

/-- A text may go on with a list of others. -/
theorem sequence {items : List Expr} {texts : List String} (start : Composed exprs text) (mark : String)
    (even : flat mark = true) (each : List.Forall₂ (fun item text => Composed [item] text) items texts) :
    Composed (exprs ++ items) (text ++ mark.intercalate texts) := by
  induction each generalizing exprs text with
  | nil =>
    rw [List.append_nil, String.intercalate_nil]
    exact start.behind "" rfl
  | @cons item one items texts composed later ih =>
    have begun := start.append composed
    cases texts with
    | nil =>
      cases later
      rw [String.intercalate_singleton]
      exact begun
    | cons next rest =>
      have more := ih (begun.behind mark even)
      simpa only [String.intercalate_cons_cons, String.append_assoc, List.append_assoc, List.singleton_append] using more

/-- A text may go on with others that each stand between two marks. -/
theorem bracketed {items : List Expr} {texts : List String} (start : Composed exprs text) (first last : String)
    (opens : flat first = true) (closes : flat last = true)
    (each : List.Forall₂ (fun item text => Composed [item] text) items texts) :
    Composed (exprs ++ items) (text ++ String.join (texts.map fun text => first ++ text ++ last)) := by
  induction each generalizing exprs text with
  | nil =>
    rw [List.append_nil]
    exact start.behind "" rfl
  | cons composed _ ih =>
    have more := ih (((start.behind first opens).append composed).behind last closes)
    simpa only [List.map_cons, String.join_cons, String.append_assoc, List.append_assoc, List.singleton_append] using more

section Uses

/-! The ways of using an expression only put marks around its text. -/

variable {code : Form → Action String} (each : ∀ form inner, Answers (code form) inner → Composed [expr] inner)

theorem variable_named {name referent : String} (spelled : Name.code name = .ok referent) (mark : String)
    (even : flat mark = true) (begins : leads mark = true) : Composed [identifier name] (mark ++ referent) :=
  .within (fun _ => Expr.noConfusion) ((word spelled).opening mark even begins)

theorem handOver {inner : String} (expected : Accessor) (composed : Composed exprs inner) :
    Composed exprs (handOver expected inner) := by
  cases expected with
  | look => exact composed.opening "&" rfl rfl
  | mutate => exact composed.opening "&mut " rfl rfl
  | move | copy => exact composed

include each

theorem of_lent (lent : Lent expr code text) : Composed [expr] text := by
  cases lent with
  | referent same spelled => exact same ▸ variable_named spelled "&*" rfl rfl
  | place _ written => exact (each _ _ written).opening "&" rfl rfl
  | value _ written => exact each _ _ written

theorem of_owned (owned : Owned expr code text) : Composed [expr] text := by
  cases owned with
  | duplicate _ written => exact (each _ _ written).behind ".clone()" rfl
  | value _ written => exact each _ _ written

theorem of_passed {expected accessor : Accessor} (passed : Passed expr code expected accessor text) :
    Composed [expr] text := by
  cases passed with
  | temporary _ written =>
    refine handOver expected ?_
    split
    · exact (each _ _ written).enclosed "(" rfl rfl ")" rfl
    · exact each _ _ written
  | duplicate _ written => exact handOver expected ((each _ _ written).behind ".clone()" rfl)
  | lent _ lent => exact of_lent each lent
  | referent same spelled => exact same ▸ variable_named spelled "&mut *" rfl rfl
  | place _ written => exact (each _ _ written).opening "&mut " rfl rfl
  | moved same spelled => exact same ▸ .within (fun _ => Expr.noConfusion) (word spelled)

theorem of_argument {operand : Method.Operand} (answers : Answers (Method.argument operand expr code) text) :
    Composed [expr] text := by
  obtain ⟨inner, written, rfl⟩ | owned := argument_given answers
  · exact (each _ _ written).enclosed "(" rfl rfl ") as usize" rfl
  · exact of_owned each owned

end Uses

theorem call {receiver : String} {arguments : List Expr} {texts : List String} (method : Method)
    (target : Composed exprs receiver)
    (each : List.Forall₂ (fun argument text => Composed [argument] text) arguments texts) :
    Composed (exprs ++ arguments) (method.call receiver texts) := by
  have named : flat ("." ++ method.name ++ "(") = true := by
    cases method <;> rfl
  have stands : Composed (exprs ++ arguments) (receiver ++ "." ++ method.name ++ "(" ++ ", ".intercalate texts ++ ")") := by
    have grouped : receiver ++ "." ++ method.name ++ "(" = receiver ++ ("." ++ method.name ++ "(") := by
      simp only [String.append_assoc]
    rw [grouped]
    exact ((target.behind _ named).sequence ", " rfl each).behind ")" rfl
  unfold Method.call
  split
  · exact stands.enclosed "(" rfl rfl " as i64)" rfl
  · exact stands

theorem vector {items : List Expr} {texts : List String}
    (each : List.Forall₂ (fun item text => Composed [item] text) items texts) : Composed items (vector texts) :=
  ((Composed.mark "vec![" rfl rfl).sequence ", " rfl each).behind "]" rfl

/-- What a line is composed of stays in the line and does not begin with a space, if that is so of its
literals. -/
theorem inline (composed : Composed exprs text)
    (neat : ∀ expr ∈ exprs, ∀ value, Part (.literal value) expr → ∀ text, value.code = .ok text →
      flat text = true ∧ leads text = true) : flat text = true ∧ leads text = true := by
  induction composed with
  | mark _ even begins => exact ⟨even, begins⟩
  | literal written => exact neat _ (List.mem_singleton_self _) _ .self _ written
  | within _ _ ih =>
    apply ih
    intro part one value inside
    exact neat _ (List.mem_singleton_self _) value (.of_parts one inside)
  | behind _ _ even ih =>
    obtain ⟨stays, begins⟩ := ih neat
    exact ⟨Layout.flat_append stays even, Layout.leads_append begins _⟩
  | append _ _ start rest =>
    obtain ⟨stays, begins⟩ := start fun expr one => neat expr (List.mem_append_left _ one)
    obtain ⟨goes, _⟩ := rest fun expr one => neat expr (List.mem_append_right _ one)
    exact ⟨Layout.flat_append stays goes, Layout.leads_append begins _⟩

/-- Every literal in the expressions stands in the text just as it is written out. -/
theorem carries (composed : Composed exprs text) {value : Literal} (one : expr ∈ exprs)
    (part : Part (.literal value) expr) :
    ∃ piece, value.code = .ok piece ∧ piece.toList <:+: text.toList := by
  induction composed generalizing expr with
  | mark => cases one
  | literal written =>
    cases List.mem_singleton.mp one
    cases part
    exact ⟨_, written, List.infix_refl _⟩
  | within compound _ ih =>
    cases List.mem_singleton.mp one
    obtain same | ⟨inner, member, inside⟩ := part.eq_or_in_parts
    · exact absurd same.symm (compound value)
    · exact ih member inside
  | behind _ _ _ ih =>
    obtain ⟨piece, written, stands⟩ := ih one part
    exact ⟨piece, written, Layout.infix_before stands _⟩
  | append _ _ start rest =>
    rcases List.mem_append.mp one with before | after
    · obtain ⟨piece, written, stands⟩ := start before part
      exact ⟨piece, written, Layout.infix_before stands _⟩
    · obtain ⟨piece, written, stands⟩ := rest after part
      exact ⟨piece, written, Layout.infix_behind _ stands⟩

end Composed

variable {signatures : Signatures}

mutual

/-- The text of an expression is composed of the texts of its parts. -/
theorem code_composed {form : Form} : (expr : Expr) → {text : String} → Answers (expr.code signatures form) text →
    Composed [expr] text
  | literal value, text, answers => by
    simp only [code] at answers
    exact .literal answers.of_lift
  | identifier name, text, answers => by
    simp only [code] at answers
    obtain ⟨binding, _, answers⟩ := answers.of_bind
    obtain ⟨word, spelled, answers⟩ := answers.of_bind
    have named := Composed.word spelled.of_lift
    refine .within (fun _ => Expr.noConfusion) ?_
    cases form with
    | place => cases answers.of_pure; exact named
    | value =>
      cases answers.of_pure
      split
      · exact named.enclosed "(*" rfl rfl ")" rfl
      · exact named
  | call function arguments, text, answers => by
    simp only [code] at answers
    obtain ⟨signature, found, answers⟩ := answers.of_bind
    obtain ⟨texts, listed, answers⟩ := answers.of_bind
    obtain ⟨_, _, answers⟩ := answers.of_bind
    obtain ⟨name, spelled, answers⟩ := answers.of_bind
    cases answers.of_pure
    have each := argumentCodes_composed arguments (Signatures.forCall_ok.mp found.of_lift).2 listed
    have named := (Composed.word spelled.of_lift).behind "(" rfl
    exact .within (fun _ => Expr.noConfusion) ((named.sequence ", " rfl each).behind ")" rfl)
  | method receiver called marked arguments, text, answers => by
    simp only [code] at answers
    obtain ⟨_, checked, answers⟩ := answers.of_bind
    obtain ⟨_, _, answers⟩ := answers.of_bind
    obtain ⟨target, written, answers⟩ := answers.of_bind
    obtain ⟨texts, listed, answers⟩ := answers.of_bind
    cases answers.of_pure
    have each := operandCodes_composed arguments (checkCall_length checked.of_lift) listed
    exact .within (fun _ => Expr.noConfusion) ((code_composed receiver written).call called each)
  | field base name, text, answers => by
    simp only [code] at answers
    obtain ⟨inner, written, answers⟩ := answers.of_bind
    obtain ⟨word, spelled, answers⟩ := answers.of_bind
    cases answers.of_pure
    have pointed := (code_composed base written).behind "." rfl
    exact .within (fun _ => Expr.noConfusion) (pointed.behind word (Layout.word_flat spelled.of_lift).1)
  | index base position, text, answers => by
    simp only [code] at answers
    obtain ⟨inner, written, answers⟩ := answers.of_bind
    obtain ⟨place, positioned, answers⟩ := answers.of_bind
    cases answers.of_pure
    have start := (code_composed base written).behind "[(" rfl
    exact .within (fun _ => Expr.noConfusion) ((start.append (code_composed position positioned)).behind ") as usize]" rfl)
  | unary operator operand, text, answers => by
    simp only [code] at answers
    obtain ⟨inner, written, answers⟩ := answers.of_bind
    cases answers.of_pure
    refine .within (fun _ => Expr.noConfusion) ((code_composed operand written).opening _ ?_ ?_)
    · cases operator <;> rfl
    · cases operator <;> rfl
  | chain first rest, text, answers => by
    simp only [code] at answers
    obtain ⟨inner, written, answers⟩ := answers.of_bind
    obtain ⟨later, listed, answers⟩ := answers.of_bind
    cases answers.of_pure
    exact .within (fun _ => Expr.noConfusion) (chainCode_composed rest (code_composed first written) listed)
  | paren inner, text, answers => by
    simp only [code] at answers
    obtain ⟨enclosed, written, answers⟩ := answers.of_bind
    cases answers.of_pure
    exact .within (fun _ => Expr.noConfusion) ((code_composed inner written).enclosed "(" rfl rfl ")" rfl)
  | collection items, text, answers => by
    simp only [code] at answers
    obtain ⟨texts, listed, answers⟩ := answers.of_bind
    cases answers.of_pure
    have vector := Composed.vector (ownedCodes_composed items listed)
    exact .within (fun _ => Expr.noConfusion) (vector.enclosed "SnVector::from(" rfl rfl ")" rfl)

theorem argumentCodes_composed {function : String} : (arguments : List (Accessor × Expr)) →
    {parameters : List (String × Accessor)} → {texts : List String} → parameters.length = arguments.length →
    Answers (argumentCodes signatures function parameters arguments) texts →
    List.Forall₂ (fun argument text => Composed [argument] text) (arguments.map Prod.snd) texts
  | [], parameters, texts, counted, answers => by
    cases List.length_eq_zero_iff.mp counted
    cases answers.of_pure
    exact .nil
  | (accessor, value) :: arguments, parameters, texts, counted, answers => by
    obtain ⟨parameter, parameters, rfl⟩ := List.exists_cons_of_length_eq_add_one counted
    simp only [argumentCodes] at answers
    obtain ⟨text, passed, answers⟩ := answers.of_bind
    obtain ⟨others, listed, same⟩ := answers.of_bind
    cases same.of_pure
    refine .cons (Composed.of_passed (fun form inner => code_composed value) (pass_passed passed)) ?_
    exact argumentCodes_composed arguments (by simpa using counted) listed

theorem operandCodes_composed : (arguments : List Expr) → {operands : List Method.Operand} → {texts : List String} →
    operands.length = arguments.length → Answers (operandCodes signatures operands arguments) texts →
    List.Forall₂ (fun argument text => Composed [argument] text) arguments texts
  | [], operands, texts, counted, answers => by
    cases List.length_eq_zero_iff.mp counted
    cases answers.of_pure
    exact .nil
  | value :: arguments, operands, texts, counted, answers => by
    obtain ⟨operand, operands, rfl⟩ := List.exists_cons_of_length_eq_add_one counted
    simp only [operandCodes] at answers
    obtain ⟨text, written, answers⟩ := answers.of_bind
    obtain ⟨others, listed, same⟩ := answers.of_bind
    cases same.of_pure
    refine .cons (Composed.of_argument (fun form inner => code_composed value) written) ?_
    exact operandCodes_composed arguments (by simpa using counted) listed

theorem chainCode_composed : (rest : List (BinaryOp × Expr)) → {exprs : List Expr} → {start text : String} →
    Composed exprs start → Answers (chainCode signatures rest) text →
    Composed (exprs ++ rest.map Prod.snd) (start ++ text)
  | [], exprs, start, text, begun, answers => by
    cases answers.of_pure
    rw [List.map_nil, List.append_nil]
    exact begun.behind "" rfl
  | (operator, operand) :: rest, exprs, start, text, begun, answers => by
    simp only [chainCode] at answers
    obtain ⟨inner, written, answers⟩ := answers.of_bind
    obtain ⟨later, listed, same⟩ := answers.of_bind
    cases same.of_pure
    have mark : flat (" " ++ operator.symbol ++ " ") = true := by
      cases operator <;> rfl
    have more := chainCode_composed rest ((begun.behind _ mark).append (code_composed operand written)) listed
    simpa only [String.append_assoc, List.append_assoc, List.singleton_append, List.map_cons] using more

theorem ownedCodes_composed :
    (items : List Expr) → {texts : List String} → Answers (ownedCodes signatures items) texts →
    List.Forall₂ (fun item text => Composed [item] text) items texts
  | [], texts, answers => by
    cases answers.of_pure
    exact .nil
  | item :: items, texts, answers => by
    simp only [ownedCodes] at answers
    obtain ⟨text, written, answers⟩ := answers.of_bind
    obtain ⟨others, listed, same⟩ := answers.of_bind
    cases same.of_pure
    refine .cons (Composed.of_owned (fun form inner => code_composed item) (own_owned written)) ?_
    exact ownedCodes_composed items listed

end

end Expr
end Lowering
