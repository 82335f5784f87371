import Lowering.Proofs.ExprParts
import Lowering.Proofs.ScopeUses

/-! What becomes of a stored value where the text takes it over. A variable, and what is reached from one
through fields and indexes, is duplicated or given away by name; but a field or an element of a
temporary value is taken out of it as it stands, and so is whatever a statement runs. -/

namespace Lowering

open Lowering.Action (Answers change_ok inspect_ok)
open Lowering.Layout (Hangs)

/-- The expression denotes storage: a variable, or a field or an element of any value. -/
def Expr.denotesStorage : Expr → Bool
  | identifier _ | field _ _ | index _ _ => true
  | paren inner => inner.denotesStorage
  | _ => false

/-- The ways in which a text takes a value over. -/
inductive Transfer where
  /-- To a variable, a caller, a collection or a container. -/
  | owner
  /-- To a parameter that owns its value, under the accessor that the call writes. -/
  | argument (function : String) (parameter : String × Accessor) (accessor : Accessor)
  /-- To nobody: the value of a statement's term is dropped. -/
  | dropped
deriving DecidableEq

namespace Transfer

/-- The text that takes the value of the expression over. -/
def code (signatures : Signatures) (expr : Expr) : Transfer → Action String
  | owner => expr.ownedCode signatures
  | argument function parameter accessor =>
    expr.pass function parameter accessor fun form => expr.code signatures form
  | dropped => expr.code signatures .value

/-- Whoever takes the value over comes to own it. -/
def owns : Transfer → Bool
  | argument _ parameter _ => !parameter.2.isLoan
  | owner | dropped => true

/-- The value stays where it is stored and a duplicate of it is taken over, unless it is a variable's and
the call says that it is moved, which the scope then knows. -/
inductive Keeps (signatures : Signatures) (expr : Expr) (transfer : Transfer) (before after : Work) : String → Prop where
  | duplicate {text middle} (written : expr.code signatures .value before = (.ok text, middle)) :
    Keeps signatures expr transfer before after (text ++ ".clone()")
  | moved {function parameter name word binding} (passed : transfer = .argument function parameter .move)
    (same : expr = .identifier name) (spelled : Name.code name = .ok word)
    (found : after.scope.find? name = some binding) (gone : binding.moved = true) :
    Keeps signatures expr transfer before after word

end Transfer

/-- The transfer of the second expression, which stands directly in the first one. -/
inductive Expr.Transfers (signatures : Signatures) : Expr → Transfer → Expr → Prop where
  | item {items item} (one : item ∈ items) : Transfers signatures (collection items) .owner item
  | element {receiver called marked arguments value}
    (one : (Method.Operand.element, value) ∈ called.operands.zip arguments) :
    Transfers signatures (method receiver called marked arguments) .owner value
  | argument {function arguments signature parameter accessor value}
    (found : signatures.get? function = some signature)
    (one : (parameter, accessor, value) ∈ signature.parameters.zip arguments) (owned : parameter.2.isLoan = false) :
    Transfers signatures (call function arguments) (.argument function parameter accessor) value

/-- The transfer of an expression in a statement, but not in one of its bodies. -/
inductive Statement.Transfers (signatures : Signatures) : Statement → Transfer → Expr → Prop where
  | binding {mutable name type value} : Transfers signatures (binding mutable name type value) .owner value
  | set {target operator value} : Transfers signatures (set target operator value) .owner value
  | returning {value} : Transfers signatures (returning (some value)) .owner value
  | run {term} : Transfers signatures (run term) .dropped term
  | inside {statement transfer value} {outer part : Expr} (one : outer ∈ statement.expressions) (within : part.Part outer)
    (transfers : part.Transfers signatures transfer value) : Transfers signatures statement transfer value

namespace Transfer

variable {signatures : Signatures} {expr : Expr} {transfer : Transfer} {before after : Work} {text : String}

section Arguments

variable {function root : String} {parameter : String × Accessor} {accessor : Accessor}

private theorem handOver_owned (owned : parameter.2.isLoan = false) (value : String) :
    Expr.handOver parameter.2 value = value := by
  cases given : parameter.2 with
  | look | mutate => rw [given] at owned; cases owned
  | move | copy => rfl

/-- Whether a variable refers to a value is asked before anything is written, which changes nothing. -/
private theorem passStored_copied {code : Form → Action String}
    (ran : expr.passStored function parameter .copy root code before = (.ok text, after)) :
    ∃ inner, code .value before = (.ok inner, after) ∧ text = Expr.handOver parameter.2 (inner ++ ".clone()") := by
  cases expr with
  | identifier name =>
    obtain ⟨_, _, asked, ran⟩ := bind_ok.mp ran
    obtain ⟨_, read, _⟩ := map_ok.mp asked
    obtain ⟨_, rfl⟩ := inspect_ok.mp read
    obtain ⟨inner, _, written, same⟩ := bind_ok.mp ran
    obtain ⟨rfl, rfl⟩ := pure_ok.mp same
    exact ⟨inner, written, rfl⟩
  | _ =>
    simp only [Expr.passStored, pure_bind] at ran
    obtain ⟨inner, _, written, same⟩ := bind_ok.mp ran
    obtain ⟨rfl, rfl⟩ := pure_ok.mp same
    exact ⟨inner, written, rfl⟩

private theorem passStored_moved {code : Form → Action String}
    (ran : expr.passStored function parameter .move root code before = (.ok text, after)) :
    (∃ name, expr = .identifier name) ∧ Name.code root = .ok text := by
  cases expr with
  | identifier name =>
    obtain ⟨_, _, _, ran⟩ := bind_ok.mp ran
    exact ⟨⟨name, rfl⟩, (lift_ok.mp ran).1⟩
  | _ =>
    simp only [Expr.passStored, pure_bind] at ran
    exact (throw_ok ran).elim

/-- What is stored is given to an owning parameter as a duplicate, or it is a variable and moved. -/
theorem argument_stored (owned : parameter.2.isLoan = false) (rooted : expr.root? = some root)
    (ran : (argument function parameter accessor).code signatures expr before = (.ok text, after)) :
    (argument function parameter accessor).Keeps signatures expr before after text := by
  simp only [code, Expr.pass, rooted] at ran
  split at ran
  next =>
    obtain ⟨_, _, thrown, _⟩ := bind_ok.mp ran
    exact (throw_ok thrown).elim
  next permitted =>
    obtain ⟨piece, middle, stored, ran⟩ := bind_ok.mp ran
    obtain ⟨_, last, handed, same⟩ := bind_ok.mp ran
    obtain ⟨rfl, rfl⟩ := pure_ok.mp same
    obtain ⟨scope, checked, rfl⟩ := change_ok.mp handed
    have owning : accessor.isLoan = false := by
      obtain rfl | rfl : accessor = parameter.2 ∨ accessor = .copy := by
        by_contra other
        exact permitted (not_or.mp other)
      · exact owned
      · rfl
    cases accessor with
    | look | mutate => cases owning
    | copy =>
      obtain ⟨inner, written, rfl⟩ := passStored_copied stored
      rw [handOver_owned owned]
      exact .duplicate written
    | move =>
      obtain ⟨⟨_, rfl⟩, spelled⟩ := passStored_moved stored
      cases rooted
      obtain ⟨binding, found, _, _, rfl⟩ := Scope.pass_ok.mp checked
      have left : (middle.scope.used (.pass root .move)).find? root = some { binding with moved := true } := by
        simp [Scope.find?_used, found]
      exact .moved rfl rfl spelled left rfl

/-- A temporary value is given away as it is. -/
theorem argument_temporary (owned : parameter.2.isLoan = false) (temporary : expr.isStored = false)
    (single : expr.isChain = false)
    (ran : (argument function parameter accessor).code signatures expr before = (.ok text, after)) :
    expr.code signatures .value before = (.ok text, after) := by
  have rootless : expr.root? = none := by simpa [Expr.isStored] using temporary
  simp only [code, Expr.pass, rootless, single] at ran
  obtain ⟨inner, middle, written, same⟩ := bind_ok.mp ran
  obtain ⟨rfl, rfl⟩ := pure_ok.mp same
  rw [handOver_owned owned]
  exact written

end Arguments

theorem keeps_of_stored (ran : transfer.code signatures expr before = (.ok text, after)) (owned : transfer.owns = true)
    (stored : expr.isStored = true) (used : transfer ≠ dropped) : transfer.Keeps signatures expr before after text := by
  cases transfer with
  | owner =>
    obtain ⟨inner, middle, written, ran⟩ := bind_ok.mp ran
    rw [if_pos stored] at ran
    obtain ⟨rfl, rfl⟩ := pure_ok.mp ran
    exact .duplicate written
  | argument function parameter accessor =>
    obtain ⟨root, rooted⟩ := Option.isSome_iff_exists.mp stored
    exact argument_stored (by simpa [owns] using owned) rooted ran
  | dropped => exact absurd rfl used

theorem value_of_left (ran : transfer.code signatures expr before = (.ok text, after)) (owned : transfer.owns = true)
    (single : expr.isChain = false) (left : expr.isStored = false ∨ transfer = dropped) :
    expr.code signatures .value before = (.ok text, after) := by
  cases transfer with
  | owner =>
    have temporary := left.resolve_right nofun
    obtain ⟨inner, middle, written, ran⟩ := bind_ok.mp ran
    rw [if_neg (by simp [temporary])] at ran
    obtain ⟨rfl, rfl⟩ := pure_ok.mp ran
    exact written
  | argument function parameter accessor =>
    exact argument_temporary (by simpa [owns] using owned) (left.resolve_right nofun) single ran
  | dropped => exact ran

/-- A duplicate is longer than the value, so it cannot be taken for the value itself. -/
theorem not_keeps_value (written : expr.code signatures .value before = (.ok text, after))
    (left : expr.isStored = false ∨ transfer = dropped) : ¬ transfer.Keeps signatures expr before after text := by
  have grown : ∀ given, transfer.Keeps signatures expr before after given → given ≠ text := by
    intro given keeps
    cases keeps with
    | duplicate written' =>
      cases written.symm.trans written'
      intro same
      exact absurd (congrArg String.length same) (by simp [String.length_append])
    | moved passed same =>
      subst passed same
      rcases left with temporary | other
      · cases temporary
      · cases other
  exact fun keeps => grown text keeps rfl

/-- What is taken over stays where it is exactly if it is stored in a variable and not dropped. Otherwise
the text is that of the value itself. -/
theorem keeps_iff (ran : transfer.code signatures expr before = (.ok text, after)) (owned : transfer.owns = true)
    (single : expr.isChain = false) :
    (transfer.Keeps signatures expr before after text ↔ expr.isStored = true ∧ transfer ≠ dropped) ∧
      (expr.isStored = false ∨ transfer = dropped → expr.code signatures .value before = (.ok text, after)) := by
  refine ⟨⟨fun keeps => ?_, fun ⟨stored, used⟩ => keeps_of_stored ran owned stored used⟩, value_of_left ran owned single⟩
  by_contra other
  have left : expr.isStored = false ∨ transfer = dropped := by
    simpa [imp_iff_not_or] using other
  exact not_keeps_value (value_of_left ran owned single left) left keeps

end Transfer

section Statements

variable {signatures : Signatures} {context : BodyContext} {transfer : Transfer} {expr : Expr}

theorem Expr.Transfers.comesOut {part : Expr} {text : String} (transfers : part.Transfers signatures transfer expr)
    (stands : part.Stands signatures text) :
    transfer.owns = true ∧ ∃ piece, Hangs piece text ∧ Answers (transfer.code signatures expr) piece := by
  cases transfers with
  | item one => exact ⟨rfl, collection_each stands _ one⟩
  | element one =>
    obtain ⟨_, _, each⟩ := method_each stands
    exact ⟨rfl, each _ one⟩
  | argument found one owned =>
    obtain ⟨_, found', _, each⟩ := call_each stands
    cases found.symm.trans found'
    exact ⟨by simp [Transfer.owns, owned], each _ one⟩

theorem Statement.Transfers.comesOut {statement : Statement} {written : StatementCode}
    (transfers : statement.Transfers context.signatures transfer expr) (answers : Answers (statement.code context) written)
    (storage : expr.denotesStorage = true) :
    transfer.owns = true ∧ ∃ piece, Hangs piece written.text ∧ Answers (transfer.code context.signatures expr) piece := by
  cases transfers with
  | binding =>
    simp only [code] at answers
    obtain ⟨_, declared, same⟩ := answers.of_bind
    cases same.of_pure
    obtain given | ⟨_, _, rfl, _⟩ := bindingCode_answers declared
    · exact ⟨rfl, given⟩
    · cases storage
  | set =>
    simp only [code] at answers
    obtain ⟨_, assigned, same⟩ := answers.of_bind
    cases same.of_pure
    exact ⟨rfl, (setCode_answers assigned).2⟩
  | returning =>
    simp only [code] at answers
    obtain ⟨_, returned, same⟩ := answers.of_bind
    cases same.of_pure
    exact ⟨rfl, returningCode_answers returned⟩
  | run => exact ⟨rfl, run_answers answers⟩
  | inside one within transfers => exact transfers.comesOut (within.stands (expressions_stand answers _ one))

/-- Whatever a statement that is written out takes over stands in its text. What is taken over from storage
is a duplicate, or a variable by its name where the call moves it, exactly if a variable stores the value
and it is not the term of a run statement. Otherwise it is the value itself that leaves its storage. -/
theorem storage_kept_iff {statement inner : Statement} {written : StatementCode}
    (answers : Answers (statement.code context) written) (within : inner.Within statement)
    (transfers : inner.Transfers context.signatures transfer expr) (storage : expr.denotesStorage = true) :
    (∃ text, Hangs text written.text ∧ Answers (transfer.code context.signatures expr) text) ∧
      ∀ before after text, transfer.code context.signatures expr before = (.ok text, after) →
        (transfer.Keeps context.signatures expr before after text ↔ expr.isStored = true ∧ transfer ≠ .dropped) ∧
        (expr.isStored = false ∨ transfer = .dropped →
          expr.code context.signatures .value before = (.ok text, after)) := by
  obtain ⟨one, comesOut, stands⟩ := within.hangs answers
  obtain ⟨owned, text, hangs, taken⟩ := transfers.comesOut comesOut storage
  have single : expr.isChain = false := by
    cases expr with
    | chain => cases storage
    | _ => rfl
  exact ⟨⟨text, hangs.trans stands, taken⟩, fun _ _ _ ran => Transfer.keeps_iff ran owned single⟩

section Samples

/-- A variable that may be changed, and a function that returns a list of lists. -/
private def holder : Work :=
  ⟨⟨[("v", ⟨.declared true, false, 0⟩)], [], 0⟩, []⟩

private def listing : BodyContext :=
  ⟨⟨[("rows", ⟨[], true⟩)]⟩, false⟩

private def elementOf (list : Expr) : Expr :=
  .index list (.literal ⟨.int, "0"⟩)

private def firstOf (list : Expr) : Statement :=
  .binding true "w" none (elementOf list)

private def guarded : Statement :=
  .ifBlock [(.literal ⟨.bool, "true"⟩, [firstOf (.identifier "v")])] none

theorem stored_element_kept :
    ∃ written, Answers (guarded.code listing) written ∧
      ∃ before after text, Transfer.owner.code listing.signatures (elementOf (.identifier "v")) before = (.ok text, after) ∧
        Hangs text written.text ∧
        Transfer.owner.Keeps listing.signatures (elementOf (.identifier "v")) before after text := by
  have ran : guarded.code listing holder = (.ok _, _) := rfl
  have within : (firstOf (.identifier "v")).Within guarded := .inBranch List.mem_cons_self List.mem_cons_self .self
  have transfers : (firstOf (.identifier "v")).Transfers listing.signatures .owner (elementOf (.identifier "v")) := .binding
  obtain ⟨⟨text, hangs, before, after, taken⟩, each⟩ := storage_kept_iff ⟨_, _, ran⟩ within transfers rfl
  exact ⟨_, ⟨_, _, ran⟩, before, after, text, taken, hangs, (each before after text taken).1.mpr ⟨rfl, nofun⟩⟩

/-- The statement is written out, and what it takes over stays nowhere. -/
private def TakesOut (statement : Statement) (transfer : Transfer) (expr : Expr) (written : StatementCode) : Prop :=
  Answers (statement.code listing) written ∧ statement.Transfers listing.signatures transfer expr ∧
    expr.denotesStorage = true ∧
    ∀ before after text, transfer.code listing.signatures expr before = (.ok text, after) →
      ¬ transfer.Keeps listing.signatures expr before after text

/-- The element is moved out of the list that was returned, and the variable's value out of the variable. -/
theorem values_taken_out :
    TakesOut (firstOf (.call "rows" [])) .owner (elementOf (.call "rows" []))
      ⟨.var, "let mut sn_w = sn_rows()[(0) as usize];\n", false⟩ ∧
    TakesOut (.run (.identifier "v")) .dropped (.identifier "v") ⟨.run, "sn_v;\n", false⟩ := by
  refine ⟨⟨⟨holder, _, by cbv⟩, .binding, rfl, ?_⟩, ⟨holder, holder, by cbv⟩, .run, rfl, ?_⟩
  · intro before after text ran
    exact Transfer.not_keeps_value (Transfer.value_of_left ran rfl rfl (.inl rfl)) (.inl rfl)
  · intro before after text ran
    exact Transfer.not_keeps_value ran (.inr rfl)

end Samples

end Statements

end Lowering
