import Lowering.Function.Code
import Lowering.Proofs.ActionRuns
import Lowering.Proofs.Indentation

/-! What the code of a statement says of the statement, whatever the scope was. A statement is
written out only if every statement within it is, whose text stands in its own, and whether it
returns can be read off it. -/

namespace Lowering

namespace Statement

open Lowering.Action (Answers)
open Lowering.Layout (Hangs)

variable {context : BodyContext}

mutual

/-- No path through the statement reaches its end: what the code records of it. -/
def alwaysReturns : Statement → Bool
  | returning _ => true
  | whileLoop condition body => condition.isTrue && (bodyReturns body && !bodyLeavesLoop body)
  | ifBlock branches otherwise => branchesReturn branches && defaultReturns otherwise
  | matchBlock _ arms otherwise => armsReturn arms && defaultReturns otherwise
  | _ => false

def bodyReturns : List Statement → Bool
  | [] => false
  | statement :: rest => alwaysReturns statement || bodyReturns rest

def branchesReturn : List (Expr × List Statement) → Bool
  | [] => true
  | (_, body) :: rest => bodyReturns body && branchesReturn rest

def armsReturn : List (List Expr × List Statement) → Bool
  | [] => true
  | (_, body) :: rest => bodyReturns body && armsReturn rest

/-- Without a default, a path leads past all alternatives. -/
def defaultReturns : Option (List Statement) → Bool
  | none => false
  | some body => bodyReturns body

end

section Inversions

variable {written : StatementCode} {condition : Expr} {body : List Statement}

/-- The body was written out and put into this block. -/
structure Inside (context : BodyContext) (body : List Statement) (block : BodyCode) (inside : BodyCode) : Prop where
  listed : Answers (listCode context body) inside
  returns : block.returns = inside.returns
  hangs : Hangs inside.text block.block

theorem inBody_answers {block : BodyCode} (answers : Answers (inBody (listCode context body)) block) :
    ∃ inside, Inside context body block inside := by
  obtain ⟨inside, ran, rest⟩ := answers.of_bind
  cases rest.of_pure
  have moved : Hangs inside.text (Layout.indent 1 inside.text) := (Hangs.refl _).indented 1
  exact ⟨inside, ran.of_between, rfl, (moved.behind _).before _⟩

theorem whileLoop_answers (answers : Answers (code context (whileLoop condition body)) written) :
    ∃ block inside, Inside context body block inside ∧ Hangs block.block written.text ∧
      written.returns = (condition.isTrue && (inside.returns && !bodyLeavesLoop body)) := by
  simp only [code] at answers
  obtain ⟨⟨test, block⟩, looped, rest⟩ := answers.of_bind
  obtain ⟨_, _, looped⟩ := looped.of_between.of_bind
  obtain ⟨_, blocked, same⟩ := looped.of_bind
  cases same.of_pure
  obtain ⟨inside, within⟩ := inBody_answers blocked
  refine ⟨block, inside, within, ?_⟩
  have stands : Hangs block.block block.block := .refl _
  split at rest
  next forever =>
    cases rest.of_pure
    exact ⟨(stands.behind _).before _, by simp [forever, within.returns]⟩
  next tested =>
    cases rest.of_pure
    exact ⟨(stands.behind _).before _, by simp [tested]⟩

theorem forLoop_answers {name : String} {range : Range}
    (answers : Answers (code context (forLoop name range body)) written) :
    ∃ block inside, Inside context body block inside ∧ Hangs block.block written.text ∧ written.returns = false := by
  simp only [code] at answers
  obtain ⟨⟨header, borrowed⟩, _, rest⟩ := answers.of_bind
  obtain ⟨outcome, attempted, rest⟩ := rest.of_bind
  obtain ⟨target, _, rest⟩ := rest.of_bind
  obtain ⟨block, kept, rest⟩ := rest.of_bind
  cases kept.of_lift
  cases rest.of_pure
  obtain ⟨_, _, blocked⟩ := attempted.of_attempt.of_between.of_bind
  obtain ⟨inside, within⟩ := inBody_answers blocked
  exact ⟨block, inside, within, ((Hangs.refl _).behind _).before _, rfl⟩

theorem listCode_answers {statement : Statement} {rest : List Statement} {all : BodyCode}
    (answers : Answers (listCode context (statement :: rest)) all) :
    ∃ first later, Answers (code context statement) first ∧ Answers (listCode context rest) later ∧
      all = .cons first later := by
  simp only [listCode] at answers
  obtain ⟨first, begun, answers⟩ := answers.of_bind
  obtain ⟨later, ended, same⟩ := answers.of_bind
  exact ⟨first, later, begun, ended, same.of_pure.symm⟩

theorem branchCodes_answers {rest : List (Expr × List Statement)} {choice : ChoiceCode}
    (answers : Answers (branchCodes context ((condition, body) :: rest)) choice) :
    ∃ head block inside later, Inside context body block inside ∧ Answers (branchCodes context rest) later ∧
      choice = .cons head block later := by
  simp only [branchCodes] at answers
  obtain ⟨_, _, answers⟩ := answers.of_bind
  obtain ⟨block, blocked, answers⟩ := answers.of_bind
  obtain ⟨later, ended, same⟩ := answers.of_bind
  obtain ⟨inside, within⟩ := inBody_answers blocked
  exact ⟨_, block, inside, later, within, ended, same.of_pure.symm⟩

theorem armCodes_answers {values : List Expr} {rest : List (List Expr × List Statement)} {choice : ChoiceCode}
    (answers : Answers (armCodes context ((values, body) :: rest)) choice) :
    ∃ head block inside later, Inside context body block inside ∧ Answers (armCodes context rest) later ∧
      choice = .cons head block later := by
  simp only [armCodes] at answers
  obtain ⟨_, _, answers⟩ := answers.of_bind
  obtain ⟨block, blocked, answers⟩ := answers.of_bind
  obtain ⟨later, ended, same⟩ := answers.of_bind
  obtain ⟨inside, within⟩ := inBody_answers blocked
  exact ⟨_, block, inside, later, within, ended, same.of_pure.symm⟩

theorem defaultCode_answers {block : Option BodyCode}
    (answers : Answers (defaultCode context (some body)) block) :
    ∃ block' inside, Inside context body block' inside ∧ block = some block' := by
  simp only [defaultCode] at answers
  obtain ⟨block, blocked, same⟩ := answers.of_map
  obtain ⟨inside, within⟩ := inBody_answers blocked
  exact ⟨block, inside, within, same.symm⟩

theorem ifBlock_answers {branches : List (Expr × List Statement)} {otherwise : Option (List Statement)}
    (answers : Answers (code context (ifBlock branches otherwise)) written) :
    ∃ choice default, Answers (branchCodes context branches) choice ∧ Answers (defaultCode context otherwise) default ∧
      written.text = (choice.close default).text ∧ written.returns = (choice.close default).returns := by
  simp only [code] at answers
  obtain ⟨choice, chosen, answers⟩ := answers.of_bind
  obtain ⟨default, closed, same⟩ := answers.of_bind
  cases same.of_pure
  exact ⟨choice, default, chosen, closed, rfl, rfl⟩

theorem matchBlock_answers {subject : Expr} {arms : List (List Expr × List Statement)}
    {otherwise : Option (List Statement)}
    (answers : Answers (code context (matchBlock subject arms otherwise)) written) :
    ∃ lent choice default, Answers (subjectCode context subject) lent ∧ Answers (armCodes context arms) choice ∧
      Answers (defaultCode context otherwise) default ∧ Hangs lent written.text ∧
      Hangs (choice.close default).text written.text ∧ written.returns = (choice.close default).returns := by
  simp only [code] at answers
  obtain ⟨lent, subjected, answers⟩ := answers.of_bind
  obtain ⟨choice, chosen, answers⟩ := answers.of_bind
  obtain ⟨default, closed, same⟩ := answers.of_bind
  cases same.of_pure
  refine ⟨lent, choice, default, subjected, chosen, closed, ?_, ?_, rfl⟩
  · exact (((((Hangs.refl lent).behind _).before _).before _).indented 1).behind _ |>.before _
  · exact (((Hangs.refl _).behind _).indented 1).behind _ |>.before _

end Inversions

mutual

theorem code_returns : (statement : Statement) → {written : StatementCode} →
    Answers (code context statement) written → written.returns = statement.alwaysReturns
  | whileLoop condition body, written, answers => by
    obtain ⟨_, inside, within, _, same⟩ := whileLoop_answers answers
    rw [same, listCode_returns body within.listed, alwaysReturns]
  | forLoop name range body, written, answers => by
    obtain ⟨_, _, _, _, same⟩ := forLoop_answers answers
    exact same
  | ifBlock branches otherwise, written, answers => by
    obtain ⟨choice, default, chosen, closed, _, same⟩ := ifBlock_answers answers
    rw [same, alwaysReturns, ← branchCodes_returns branches chosen]
    exact defaultCode_returns otherwise closed
  | matchBlock subject arms otherwise, written, answers => by
    obtain ⟨_, choice, default, _, chosen, closed, _, _, same⟩ := matchBlock_answers answers
    rw [same, alwaysReturns, ← armCodes_returns arms chosen]
    exact defaultCode_returns otherwise closed
  | print _, written, answers | binding _ _ _ _, written, answers | set _ _ _, written, answers
  | run _, written, answers | returning _, written, answers | breaking, written, answers
  | continuing, written, answers => by
    simp only [code] at answers
    obtain ⟨_, _, same⟩ := answers.of_bind
    cases same.of_pure
    rfl

theorem listCode_returns : (statements : List Statement) → {all : BodyCode} →
    Answers (listCode context statements) all → all.returns = bodyReturns statements
  | [], all, answers => by
    cases answers.of_pure
    rfl
  | statement :: rest, all, answers => by
    obtain ⟨first, later, begun, ended, rfl⟩ := listCode_answers answers
    rw [BodyCode.cons, code_returns statement begun, listCode_returns rest ended, bodyReturns]

theorem branchCodes_returns : (branches : List (Expr × List Statement)) → {choice : ChoiceCode} →
    Answers (branchCodes context branches) choice → choice.returns = branchesReturn branches
  | [], choice, answers => by
    cases answers.of_pure
    rfl
  | (condition, body) :: rest, choice, answers => by
    obtain ⟨_, _, inside, later, within, ended, rfl⟩ := branchCodes_answers answers
    rw [ChoiceCode.cons, within.returns, listCode_returns body within.listed, branchCodes_returns rest ended, branchesReturn]

theorem armCodes_returns : (arms : List (List Expr × List Statement)) → {choice : ChoiceCode} →
    Answers (armCodes context arms) choice → choice.returns = armsReturn arms
  | [], choice, answers => by
    cases answers.of_pure
    rfl
  | (values, body) :: rest, choice, answers => by
    obtain ⟨_, _, inside, later, within, ended, rfl⟩ := armCodes_answers answers
    rw [ChoiceCode.cons, within.returns, listCode_returns body within.listed, armCodes_returns rest ended, armsReturn]

theorem defaultCode_returns : (otherwise : Option (List Statement)) → {default : Option BodyCode} →
    {choice : ChoiceCode} → Answers (defaultCode context otherwise) default →
    (choice.close default).returns = (choice.returns && defaultReturns otherwise)
  | none, default, choice, answers => by
    cases answers.of_pure
    simp [ChoiceCode.close, defaultReturns]
  | some body, default, choice, answers => by
    obtain ⟨block, inside, within, rfl⟩ := defaultCode_answers answers
    simp only [ChoiceCode.close, defaultReturns, within.returns, listCode_returns body within.listed]

end

/-- A statement is the other or stands in one of its bodies, however deep. -/
inductive Within (inner : Statement) : Statement → Prop where
  | self : Within inner inner
  | inWhile {condition body outer} (member : outer ∈ body) (within : Within inner outer) :
    Within inner (whileLoop condition body)
  | inFor {name range body outer} (member : outer ∈ body) (within : Within inner outer) :
    Within inner (forLoop name range body)
  | inBranch {branches otherwise branch outer} (one : branch ∈ branches) (member : outer ∈ branch.2)
    (within : Within inner outer) : Within inner (ifBlock branches otherwise)
  | inElse {branches body outer} (member : outer ∈ body) (within : Within inner outer) :
    Within inner (ifBlock branches (some body))
  | inArm {subject arms otherwise arm outer} (one : arm ∈ arms) (member : outer ∈ arm.2)
    (within : Within inner outer) : Within inner (matchBlock subject arms otherwise)
  | inDefault {subject arms body outer} (member : outer ∈ body) (within : Within inner outer) :
    Within inner (matchBlock subject arms (some body))

/-- The statement goes through with this context in some scope. -/
def Writes (context : BodyContext) (statement : Statement) : Prop :=
  ∃ written, Answers (code context statement) written

section Bodies

variable {choice : ChoiceCode}

theorem listCode_each {statements : List Statement} {all : BodyCode} (answers : Answers (listCode context statements) all) :
    ∀ statement ∈ statements, ∃ written, Answers (code context statement) written ∧ Hangs written.text all.text := by
  induction statements generalizing all with
  | nil => nofun
  | cons statement rest ih =>
    obtain ⟨first, later, begun, ended, rfl⟩ := listCode_answers answers
    intro other member
    rcases List.mem_cons.mp member with rfl | inRest
    · exact ⟨first, begun, (Hangs.refl _).before _⟩
    · obtain ⟨written, one, hangs⟩ := ih ended other inRest
      exact ⟨written, one, hangs.behind _⟩

theorem branchCodes_each {branches : List (Expr × List Statement)} (answers : Answers (branchCodes context branches) choice) :
    ∀ branch ∈ branches, ∃ block inside, Inside context branch.2 block inside ∧
      ∃ text ∈ choice.texts, Hangs block.block text := by
  induction branches generalizing choice with
  | nil => nofun
  | cons branch rest ih =>
    obtain ⟨head, block, inside, later, within, ended, rfl⟩ := branchCodes_answers answers
    intro other member
    rcases List.mem_cons.mp member with rfl | inRest
    · exact ⟨block, inside, within, _, List.mem_cons_self, (Hangs.refl _).behind _⟩
    · obtain ⟨block, inside, within, text, one, hangs⟩ := ih ended other inRest
      exact ⟨block, inside, within, text, List.mem_cons_of_mem _ one, hangs⟩

theorem armCodes_each {arms : List (List Expr × List Statement)} (answers : Answers (armCodes context arms) choice) :
    ∀ arm ∈ arms, ∃ block inside, Inside context arm.2 block inside ∧ ∃ text ∈ choice.texts, Hangs block.block text := by
  induction arms generalizing choice with
  | nil => nofun
  | cons arm rest ih =>
    obtain ⟨head, block, inside, later, within, ended, rfl⟩ := armCodes_answers answers
    intro other member
    rcases List.mem_cons.mp member with rfl | inRest
    · exact ⟨block, inside, within, _, List.mem_cons_self, (Hangs.refl _).behind _⟩
    · obtain ⟨block, inside, within, text, one, hangs⟩ := ih ended other inRest
      exact ⟨block, inside, within, text, List.mem_cons_of_mem _ one, hangs⟩

/-- The alternatives before the last one stand in the whole choice, and so does the last one. -/
theorem hangs_close (default : Option BodyCode) {text : String} (one : text ∈ choice.texts) :
    Hangs text (choice.close default).text := by
  have stays : text ∈ (choice.close default).texts := by
    cases default with
    | none => exact one
    | some block => exact List.mem_append_left _ one
  exact ((Hangs.refl text).among _ stays).before _

theorem hangs_default (choice : ChoiceCode) (block : BodyCode) : Hangs block.block (choice.close (some block)).text :=
  ((Hangs.refl _).among _ (List.mem_append_right _ (List.mem_singleton_self _))).before _

theorem Inside.each {body : List Statement} {block inside : BodyCode} {text : String}
    (within : Inside context body block inside) (stands : Hangs block.block text) :
    ∀ statement ∈ body, ∃ written, Answers (code context statement) written ∧ Hangs written.text text := by
  intro statement member
  obtain ⟨written, one, hangs⟩ := listCode_each within.listed statement member
  exact ⟨written, one, (hangs.trans within.hangs).trans stands⟩

end Bodies

/-- What stands in the bodies of a statement stands in its text. -/
theorem Within.hangs {inner outer : Statement} (within : Within inner outer) {written : StatementCode}
    (answers : Answers (code context outer) written) :
    ∃ one, Answers (code context inner) one ∧ Hangs one.text written.text := by
  -- A statement of a body comes out there, and with it what is within it.
  have through : ∀ {outer : Statement} {whole : String},
      (∀ {written : StatementCode}, Answers (code context outer) written →
        ∃ one, Answers (code context inner) one ∧ Hangs one.text written.text) →
      (∃ written, Answers (code context outer) written ∧ Hangs written.text whole) →
      ∃ one, Answers (code context inner) one ∧ Hangs one.text whole := by
    intro outer whole ih
    rintro ⟨written, answers, hangs⟩
    obtain ⟨one, inside, stands⟩ := ih answers
    exact ⟨one, inside, stands.trans hangs⟩
  induction within generalizing written with
  | self => exact ⟨written, answers, .refl _⟩
  | inWhile member _ ih =>
    obtain ⟨_, _, within, stands, _⟩ := whileLoop_answers answers
    exact through ih (within.each stands _ member)
  | inFor member _ ih =>
    obtain ⟨_, _, within, stands, _⟩ := forLoop_answers answers
    exact through ih (within.each stands _ member)
  | inBranch one member _ ih =>
    obtain ⟨_, default, chosen, _, same, _⟩ := ifBlock_answers answers
    obtain ⟨_, _, within, text, among, stands⟩ := branchCodes_each chosen _ one
    exact through ih (within.each (same ▸ stands.trans (hangs_close default among)) _ member)
  | inElse member _ ih =>
    obtain ⟨choice, _, _, closed, same, _⟩ := ifBlock_answers answers
    obtain ⟨block, _, within, rfl⟩ := defaultCode_answers closed
    exact through ih (within.each (same ▸ hangs_default choice block) _ member)
  | inArm one member _ ih =>
    obtain ⟨_, _, default, _, chosen, _, _, placed, _⟩ := matchBlock_answers answers
    obtain ⟨_, _, within, text, among, stands⟩ := armCodes_each chosen _ one
    exact through ih (within.each ((stands.trans (hangs_close default among)).trans placed) _ member)
  | inDefault member _ ih =>
    obtain ⟨_, choice, _, _, _, closed, _, placed, _⟩ := matchBlock_answers answers
    obtain ⟨block, _, within, rfl⟩ := defaultCode_answers closed
    exact through ih (within.each ((hangs_default choice block).trans placed) _ member)

theorem Within.writes {inner outer : Statement} (within : Within inner outer) (written : Writes context outer) :
    Writes context inner := by
  obtain ⟨_, answers⟩ := written
  obtain ⟨one, inside, _⟩ := within.hangs answers
  exact ⟨one, inside⟩

theorem returning_writes {value : Option Expr} (written : Writes context (returning value)) :
    value.isSome = context.hasResult := by
  obtain ⟨_, answers⟩ := written
  simp only [code] at answers
  obtain ⟨_, returned, _⟩ := answers.of_bind
  obtain ⟨_, _, ran⟩ := returned
  unfold returningCode at ran
  cases value <;> cases result : context.hasResult
  · rfl
  · simp only [result] at ran
    exact (throw_ok ran).elim
  · simp only [result] at ran
    exact (throw_ok ran).elim
  · rfl

end Statement
end Lowering
