import Mathlib
import Lowering.Proofs.Openings
import Lowering.Statement.Code

/-! How a variable that refers to a value is lent on. Where the variable itself is lent, what it refers to
is borrowed again. In parentheses it is borrowed like a variable that owns its value, so that one
reference is put on top of another. -/

namespace Lowering

def Accessor.mark : Accessor → String
  | look => "&"
  | mutate => "&mut "
  | move | copy => ""

/-- Parentheses around a text. -/
def enclose (text : String) : Nat → String
  | 0 => text
  | depth + 1 => "(" ++ enclose text depth ++ ")"

/-- The text with its parentheses left out. -/
def unenclosed (text : String) : List Char :=
  text.toList.filter fun char => char != '(' && char != ')'

theorem unenclosed_append (first last : String) : unenclosed (first ++ last) = unenclosed first ++ unenclosed last := by
  rw [unenclosed, String.toList_append, List.filter_append]
  rfl

theorem unenclosed_enclose (text : String) (depth : Nat) : unenclosed (enclose text depth) = unenclosed text := by
  induction depth with
  | zero => rfl
  | succ depth ih =>
    rw [enclose, unenclosed_append, unenclosed_append, ih]
    exact List.append_nil _

/-- The references that the value of a text is behind, the outermost first, for the text of a variable
under such operators. The variable is itself behind those that are held. -/
inductive Typed (word : List Char) (held : List Accessor) : List Char → List Accessor → Prop where
  | named : Typed word held word held
  | enclosed {text type} (inner : Typed word held text type) : Typed word held ('(' :: (text ++ [')'])) type
  | referent {text accessor type} (inner : Typed word held text (accessor :: type)) : Typed word held ('*' :: text) type
  | shared {text type} (inner : Typed word held text type) : Typed word held ('&' :: text) (.look :: type)
  | exclusive {text type} (inner : Typed word held text type) :
    Typed word held ("&mut ".toList ++ text) (.mutate :: type)

namespace Typed

variable {word text : List Char} {held type other : List Accessor}

private theorem not_letter (named : word.head? = some 's') (typed : Typed word held text type) :
    text.head? ≠ some 'm' := by
  cases typed with
  | named => simp [named]
  | enclosed _ | referent _ | shared _ | exclusive _ => simp

/-- A text has one type, since its first character tells what it is made of. -/
theorem unique (named : word.head? = some 's') (first : Typed word held text type)
    (second : Typed word held text other) : type = other := by
  induction first generalizing other with
  | named =>
    generalize same : word = text at second
    cases second with
    | named => rfl
    | enclosed _ | referent _ | shared _ | exclusive _ => simp [same] at named
  | @enclosed text type _ ih =>
    generalize same : '(' :: (text ++ [')']) = whole at second
    cases second with
    | named => simp [← same] at named
    | enclosed inner =>
      have equal := List.append_cancel_right (List.cons.inj same).2
      exact ih (equal ▸ inner)
    | referent _ | shared _ | exclusive _ => simp at same
  | @referent text accessor type _ ih =>
    generalize same : '*' :: text = whole at second
    cases second with
    | named => simp [← same] at named
    | referent inner =>
      have equal := ih ((List.cons.inj same).2 ▸ inner)
      exact (List.cons.inj equal).2
    | enclosed _ | shared _ | exclusive _ => simp at same
  | @shared text type typed ih =>
    generalize same : '&' :: text = whole at second
    cases second with
    | named => simp [← same] at named
    | shared inner => rw [ih ((List.cons.inj same).2 ▸ inner)]
    | exclusive _ =>
      refine absurd ?_ (not_letter named typed)
      rw [(List.cons.inj same).2]
      rfl
    | enclosed _ | referent _ => simp at same
  | @exclusive text type _ ih =>
    generalize same : "&mut ".toList ++ text = whole at second
    cases second with
    | named => simp [← same] at named
    | shared inner =>
      refine absurd ?_ (not_letter named inner)
      rw [← (List.cons.inj same).2]
      rfl
    | exclusive inner => rw [ih (List.append_cancel_left same ▸ inner)]
    | enclosed _ | referent _ => simp at same

theorem iff_of (named : word.head? = some 's') (typed : Typed word held text type) :
    Typed word held text other ↔ other = type := by
  constructor
  · exact fun again => unique named again typed
  · exact fun same => same ▸ typed

end Typed

namespace Expr

/-- A variable in so many pairs of parentheses. -/
def wrapped (name : String) : Nat → Expr
  | 0 => identifier name
  | depth + 1 => paren (wrapped name depth)

theorem wrapped_root? (name : String) (depth : Nat) : (wrapped name depth).root? = some name := by
  induction depth with
  | zero => rfl
  | succ depth ih => exact ih

theorem wrapped_isStored (name : String) (depth : Nat) : (wrapped name depth).isStored = true := by
  rw [isStored, wrapped_root?, Option.isSome_some]

/-- As a place, a variable in parentheses is its name in parentheses. -/
theorem wrapped_place {signatures : Signatures} {name text : String} {depth : Nat} {before after : Work} :
    (wrapped name depth).code signatures .place before = (.ok text, after) ↔
      (∃ binding, before.scope.readable name = .ok binding) ∧ before = after ∧
        ∃ word, Name.code name = .ok word ∧ text = enclose word depth := by
  induction depth generalizing text after with
  | zero =>
    simp only [wrapped, code, bind_ok, Action.readable, Action.inspect_ok, lift_ok, pure_ok]
    constructor
    · rintro ⟨binding, _, ⟨read, rfl⟩, word, _, ⟨spelled, rfl⟩, same, final⟩
      exact ⟨⟨binding, read⟩, final, word, spelled, same.symm⟩
    · rintro ⟨⟨binding, read⟩, final, word, spelled, same⟩
      exact ⟨binding, before, ⟨read, rfl⟩, word, before, ⟨spelled, rfl⟩, same.symm, final⟩
  | succ depth ih =>
    simp only [wrapped, code, wrapped_isStored, if_true, bind_ok, pure_ok, ih]
    constructor
    · rintro ⟨inner, _, ⟨readable, rfl, word, spelled, same⟩, whole, final⟩
      exact ⟨readable, final, word, spelled, by rw [← whole, same, enclose]⟩
    · rintro ⟨readable, final, word, spelled, same⟩
      exact ⟨_, _, ⟨readable, rfl, word, spelled, rfl⟩, same.symm, final⟩

/-- What is borrowed where a variable in parentheses is lent that refers to a value. -/
def lendable (word : String) : Nat → String
  | 0 => "*" ++ word
  | depth + 1 => enclose word (depth + 1)

section Lending

variable {signatures : Signatures} {name text : String} {depth : Nat} {before after : Work} {binding : Binding}

private theorem referring (found : before.scope.find? name = some binding) {next : Binding → Action String} :
    (Action.readable name >>= next) before = (.ok text, after) ↔
      binding.moved = false ∧ next binding before = (.ok text, after) := by
  simp only [bind_ok, Action.readable, Action.inspect_ok, Scope.readable_ok, found, Option.some.injEq]
  constructor
  · rintro ⟨_, _, ⟨⟨rfl, whole⟩, rfl⟩, ran⟩
    exact ⟨whole, ran⟩
  · rintro ⟨whole, ran⟩
    exact ⟨binding, before, ⟨⟨rfl, whole⟩, rfl⟩, ran⟩

private theorem named_referent {mark : String} :
    (do return mark ++ (← Name.code name) : Action String) before = (.ok text, after) ↔
      before = after ∧ ∃ word, Name.code name = .ok word ∧ text = mark ++ word := by
  simp only [bind_ok, lift_ok, pure_ok]
  constructor
  · rintro ⟨word, _, ⟨spelled, rfl⟩, same, final⟩
    exact ⟨final, word, spelled, same.symm⟩
  · rintro ⟨final, word, spelled, same⟩
    exact ⟨word, before, ⟨spelled, rfl⟩, same.symm, final⟩

private theorem parenthesised_place (found : before.scope.find? name = some binding) {mark : String} :
    (do return mark ++ (← (wrapped name (depth + 1)).code signatures .place) : Action String) before =
        (.ok text, after) ↔
      binding.moved = false ∧ before = after ∧
        ∃ word, Name.code name = .ok word ∧ text = mark ++ lendable word (depth + 1) := by
  simp only [bind_ok, pure_ok, wrapped_place, Scope.readable_ok, found, Option.some.injEq]
  constructor
  · rintro ⟨inner, _, ⟨⟨_, rfl, whole⟩, rfl, word, spelled, same⟩, lent, final⟩
    exact ⟨whole, final, word, spelled, by rw [← lent, same]; rfl⟩
  · rintro ⟨whole, final, word, spelled, same⟩
    exact ⟨_, _, ⟨⟨_, rfl, whole⟩, rfl, word, spelled, rfl⟩, same.symm, final⟩

theorem wrapped_lent (found : before.scope.find? name = some binding) (loan : binding.isLoan = true) :
    (wrapped name depth).lentCode signatures before = (.ok text, after) ↔
      binding.moved = false ∧ before = after ∧
        ∃ word, Name.code name = .ok word ∧ text = Accessor.look.mark ++ lendable word depth := by
  cases depth with
  | zero =>
    simp only [wrapped, lentCode, lend, referring found, loan, if_true, named_referent]
    rfl
  | succ depth =>
    have borrowed : (wrapped name (depth + 1)).lentCode signatures =
        do return "&" ++ (← (wrapped name (depth + 1)).code signatures .place) :=
      if_pos (wrapped_isStored name (depth + 1))
    rw [borrowed, parenthesised_place found]
    rfl

theorem wrapped_stored {function : String} {parameter : String × Accessor} {accessor : Accessor}
    (found : before.scope.find? name = some binding) (loan : binding.isLoan = true) (lends : accessor.isLoan = true) :
    (wrapped name depth).passStored function parameter accessor name
        (fun form => (wrapped name depth).code signatures form) before = (.ok text, after) ↔
      binding.moved = false ∧ before = after ∧
        ∃ word, Name.code name = .ok word ∧ text = accessor.mark ++ lendable word depth := by
  cases depth with
  | zero =>
    simp only [wrapped, passStored, bind_map_left, referring found, loan, if_true]
    cases accessor with
    | look =>
      have lent := @wrapped_lent signatures name text 0 before after binding found loan
      simp only [wrapped, lentCode] at lent
      rw [lent, and_self_left]
    | mutate =>
      rw [named_referent]
      rfl
    | move | copy => cases lends
  | succ depth =>
    cases accessor with
    | look =>
      rw [← @wrapped_lent signatures name text (depth + 1) before after binding found loan]
      simp only [wrapped, passStored, pure_bind, lentCode]
    | mutate =>
      rw [← parenthesised_place found]
      simp only [wrapped, passStored, pure_bind, Bool.false_eq_true, if_false]
      rfl
    | move | copy => cases lends

private theorem lending_passes {accessor : Accessor} (found : before.scope.find? name = some binding)
    (lends : accessor.isLoan = true) :
    (∃ after, Action.pass name accessor before = (.ok (), after)) ↔
      binding.moved = false ∧ binding.permits accessor = true := by
  simp only [Action.pass, Action.change_ok, Scope.pass_ok, found, Option.some.injEq, Binding.Allows]
  constructor
  · rintro ⟨_, _, ⟨_, rfl, whole, ⟨permitted, _⟩, _⟩, _⟩
    exact ⟨whole, permitted⟩
  · rintro ⟨whole, permitted⟩
    refine ⟨_, _, ⟨binding, rfl, whole, ⟨permitted, ?_⟩, rfl⟩, rfl⟩
    rintro rfl
    cases lends

theorem wrapped_passed {function parameter : String} {accessor : Accessor}
    (found : before.scope.find? name = some binding) (loan : binding.isLoan = true) (lends : accessor.isLoan = true) :
    (∃ after, (wrapped name depth).pass function (parameter, accessor) accessor
        (fun form => (wrapped name depth).code signatures form) before = (.ok text, after)) ↔
      binding.moved = false ∧ binding.permits accessor = true ∧
        ∃ word, Name.code name = .ok word ∧ text = accessor.mark ++ lendable word depth := by
  simp only [pass, wrapped_root?, ne_eq, not_true, false_and, if_false, bind_ok, wrapped_stored found loan lends, pure_ok]
  constructor
  · rintro ⟨_, _, _, ⟨whole, rfl, word, spelled, rfl⟩, _, _, passed, same, _⟩
    exact ⟨whole, ((lending_passes found lends).mp ⟨_, passed⟩).2, word, spelled, same.symm⟩
  · rintro ⟨whole, permitted, written⟩
    obtain ⟨after, passed⟩ := (lending_passes found lends).mpr ⟨whole, permitted⟩
    exact ⟨after, text, before, ⟨whole, rfl, written⟩, (), after, passed, rfl, rfl⟩

end Lending

end Expr

/-- What takes a value by reference: a print statement, a match for its subject, or a function for a
parameter that it is only to look at or that it may change. -/
inductive Taker where
  | print
  | subject
  | looking (function parameter : String)
  | changing (function parameter : String)

namespace Taker

/-- The reference that is taken. -/
def takes : Taker → Accessor
  | print | subject | looking _ _ => .look
  | changing _ _ => .mutate

/-- Writes out what is taken. -/
def code (context : BodyContext) (expr : Expr) : Taker → Action String
  | print => expr.lentCode context.signatures
  | subject => Statement.subjectCode context expr
  | looking function parameter =>
    expr.pass function (parameter, .look) .look fun form => expr.code context.signatures form
  | changing function parameter =>
    expr.pass function (parameter, .mutate) .mutate fun form => expr.code context.signatures form

theorem takes_isLoan (taker : Taker) : taker.takes.isLoan = true := by
  cases taker <;> rfl

theorem code_wrapped {context : BodyContext} {taker : Taker} {name text : String} {depth : Nat} {before : Work}
    {binding : Binding} (found : before.scope.find? name = some binding) (loan : binding.isLoan = true) :
    (∃ after, taker.code context (.wrapped name depth) before = (.ok text, after)) ↔
      binding.moved = false ∧ binding.permits taker.takes = true ∧
        ∃ word, Name.code name = .ok word ∧ text = taker.takes.mark ++ Expr.lendable word depth := by
  have lent : (∃ after, (Expr.wrapped name depth).lentCode context.signatures before = (.ok text, after)) ↔
      binding.moved = false ∧ binding.permits .look = true ∧
        ∃ word, Name.code name = .ok word ∧ text = Accessor.look.mark ++ Expr.lendable word depth := by
    simp only [Expr.wrapped_lent found loan, exists_and_left, exists_and_right, exists_eq', Binding.permits, true_and]
  cases taker with
  | print => exact lent
  | subject =>
    simp only [code, Statement.subjectCode, Expr.wrapped_isStored, if_true]
    exact lent
  | looking function parameter | changing function parameter => exact Expr.wrapped_passed found loan rfl

end Taker

namespace Typed

variable {word : List Char} {held accessor : Accessor}

theorem marked {text : List Char} {type : List Accessor} (lends : accessor.isLoan = true)
    (typed : Typed word [held] text type) : Typed word [held] (accessor.mark.toList ++ text) (accessor :: type) := by
  cases accessor with
  | look => exact .shared typed
  | mutate => exact .exclusive typed
  | move | copy => cases lends

theorem parenthesised (text : String) (depth : Nat) {type : List Accessor} (typed : Typed word [held] text.toList type) :
    Typed word [held] (enclose text depth).toList type := by
  induction depth with
  | zero => exact typed
  | succ depth ih =>
    have whole : (enclose text (depth + 1)).toList = '(' :: ((enclose text depth).toList ++ [')']) := by
      simp [enclose]
    rw [whole]
    exact .enclosed ih

/-- The variable in parentheses is behind the reference that it holds, and what it refers to is behind none. -/
theorem lendable (text : String) (held : Accessor) (depth : Nat) :
    Typed text.toList [held] (Expr.lendable text depth).toList (if depth = 0 then [] else [held]) := by
  cases depth with
  | zero =>
    have whole : (Expr.lendable text 0).toList = '*' :: text.toList := String.toList_append
    rw [whole]
    exact .referent .named
  | succ depth => exact parenthesised text (depth + 1) .named

end Typed

/-- Where a variable that refers to a value is taken by reference, what it refers to is borrowed again if
the variable stands there without parentheses. Around a variable in parentheses one reference is put on
top of another, so that what is compared with the values of a match is itself a reference. -/
theorem reborrowed_iff (context : BodyContext) (taker : Taker) (name : String) (depth : Nat) (before : Work)
    (binding : Binding) (held : Accessor) (found : before.scope.find? name = some binding)
    (loan : binding.loan? = some held) :
    (∀ text, (∃ after, taker.code context (.wrapped name depth) before = (.ok text, after)) ↔
      binding.moved = false ∧ binding.permits taker.takes = true ∧
        ∃ word, Name.code name = .ok word ∧ text = taker.takes.mark ++ Expr.lendable word depth) ∧
    ∀ word text, Name.code name = .ok word → text = taker.takes.mark ++ Expr.lendable word depth →
      (unenclosed text = unenclosed (taker.takes.mark ++ "*" ++ word) ↔ depth = 0) ∧
      (∀ type, Typed word.toList [held] text.toList type ↔
        type = if depth = 0 then [taker.takes] else [taker.takes, held]) ∧
      (Typed word.toList [held] ('*' :: text.toList) [] ↔ depth = 0) := by
  have refers : binding.isLoan = true := by rw [Binding.isLoan, loan, Option.isSome_some]
  refine ⟨fun text => Taker.code_wrapped found refers, ?_⟩
  rintro word _ spelled rfl
  have first : word.toList.head? = some 's' := by
    rw [Name.code_eq spelled, String.toList_append]
    rfl
  have typed := (Typed.lendable word held depth).marked taker.takes_isLoan
  rw [← String.toList_append] at typed
  cases depth with
  | zero =>
    refine ⟨iff_of_true ?_ rfl, fun type => typed.iff_of first, iff_of_true (.referent typed) rfl⟩
    rw [Expr.lendable, String.append_assoc]
  | succ depth =>
    refine ⟨iff_of_false ?_ nofun, fun type => typed.iff_of first, iff_of_false ?_ nofun⟩
    · intro same
      rw [String.append_assoc, unenclosed_append, unenclosed_append, Expr.lendable, unenclosed_enclose] at same
      have longer := List.append_cancel_left same
      rw [unenclosed_append] at longer
      exact absurd (congrArg List.length longer) (by simp [unenclosed])
    · intro value
      have stacked := Typed.unique first value (.referent typed)
      cases stacked

section Samples

/-- Nothing but a parameter that is only looked at. -/
private def lookedAt : Work :=
  ⟨⟨[("n", ⟨.parameter .look, false, 0⟩)], [], 0⟩, []⟩

private def answering : BodyContext :=
  ⟨⟨[]⟩, false⟩

theorem subject_reborrowed :
    (∃ after, Taker.subject.code answering (.wrapped "n" 0) lookedAt = (.ok "&*sn_n", after)) ∧
      Typed "sn_n".toList [.look] ('*' :: "&*sn_n".toList) [] := by
  obtain ⟨emitted, borrowed⟩ := reborrowed_iff answering .subject "n" 0 lookedAt ⟨.parameter .look, false, 0⟩ .look rfl rfl
  exact ⟨(emitted "&*sn_n").mpr ⟨rfl, rfl, "sn_n", rfl, rfl⟩, (borrowed "sn_n" "&*sn_n" rfl rfl).2.2.mpr rfl⟩

/-- In parentheses the parameter is lent as it is, and not what it refers to. -/
theorem parenthesised_subject_stacked :
    (∃ after, Taker.subject.code answering (.wrapped "n" 1) lookedAt = (.ok "&(sn_n)", after)) ∧
      unenclosed "&(sn_n)" ≠ unenclosed "&*sn_n" ∧
      ¬ Typed "sn_n".toList [.look] "&(sn_n)".toList [.look] ∧
      ¬ Typed "sn_n".toList [.look] ('*' :: "&(sn_n)".toList) [] := by
  have stacked : Typed "sn_n".toList [.look] "&(sn_n)".toList [.look, .look] := .shared (.enclosed .named)
  refine ⟨⟨lookedAt, by cbv⟩, by decide, ?_, ?_⟩
  · intro single
    cases Typed.unique rfl single stacked
  · intro value
    cases Typed.unique rfl value (.referent stacked)

end Samples

end Lowering
