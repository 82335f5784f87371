import Mathlib
import Lowering.Function.Code
import Lowering.Proofs.Reports
import Lowering.Proofs.StatementSteps

/-! What it takes for a function to be written out. Its body can be read, the parameters and then
the statements go through in one scope, and a declared result is returned by some statement. -/

namespace Lowering

namespace Definition

/-- The statements of the body, none where it is left out. -/
def body (definition : Definition) : Except Error (List Statement) :=
  match definition.statements with
  | some tree => (Statement.listOfTree tree).result
  | none => .ok []

def parameterSteps (definition : Definition) : List Step :=
  definition.parameters.map fun parameter => .declare parameter.name (.parameter parameter.accessor)

def context (signatures : Signatures) (definition : Definition) : BodyContext :=
  ⟨signatures, definition.resultType.isSome⟩

/-- The function is written out with a body of these statements. -/
structure Accepts (signatures : Signatures) (definition : Definition) (statements : List Statement) :
    Prop where
  read : definition.body = .ok statements
  ran : ∃ after, Scope.initial.run (definition.parameterSteps ++ Statement.bodySteps statements) = .ok after
  written : ∃ before codes after,
    Function.statementCodes (definition.context signatures) statements before = (.ok codes, after) ∧
      (definition.resultType.isSome = true → codes.any StatementCode.returns = true)

/-- The parameters and the statements of the body go through in a new scope and give these codes. -/
def Writes (signatures : Signatures) (definition : Definition) (statements : List Statement)
    (codes : List StatementCode) : Prop :=
  ∃ before after, before.scope = .initial ∧ ∃ middle,
    Function.declareParameters definition.parameters before = (.ok (), middle) ∧
    Function.statementCodes (definition.context signatures) statements middle = (.ok codes, after)

/-- The function with these statements for its body. -/
def written (definition : Definition) (codes : List StatementCode) : Function :=
  ⟨definition.name, definition.parameters, definition.resultType, codes,
    String.join (codes.map StatementCode.text)⟩

/-- What a function comes out as among functions of these signatures: its body can be read, its
parameters and statements go through, and a declared result is returned on every path. -/
def Becomes (signatures : Signatures) (definition : Definition) (function : Function) : Prop :=
  ∃ statements codes, definition.body = .ok statements ∧ definition.Writes signatures statements codes ∧
    (definition.resultType.isSome = true → codes.any StatementCode.returns = true) ∧
    function = definition.written codes

end Definition

namespace Function

open Lowering.Action (Repeats)

theorem declareParameters_repeats (definition : Definition) :
    Repeats (declareParameters definition.parameters) (declareParameters definition.parameters)
      definition.parameterSteps := by
  unfold declareParameters Definition.parameterSteps
  induction definition.parameters with
  | nil => exact .pure _
  | cons parameter rest ih => exact (Repeats.declare _ _).bind fun _ => ih

theorem statementCodes_repeats {context other : BodyContext} (carried : context.CarriedBy other)
    (statements : List Statement) :
    Repeats (statementCodes context statements) (statementCodes other statements) (Statement.bodySteps statements) := by
  rw [Statement.bodySteps_eq]
  exact Repeats.mapM statements fun statement _ => Statement.code_repeats carried statement

theorem readBody_ok {definition : Definition} {before after : Work} {statements : List Statement}
    (ran : readBody definition before = (.ok statements, after)) :
    definition.body = .ok statements ∧ after.scope = before.scope := by
  cases written : definition.statements with
  | some tree =>
    simp only [readBody, written] at ran
    obtain ⟨answered, rfl⟩ := Prod.mk.injEq .. |>.mp ran
    have steady := (Statement.listOfTree_steady tree).result_eq before.events
    exact ⟨by rw [Definition.body, written]; exact steady.symm.trans answered, rfl⟩
  | none =>
    simp only [readBody, written] at ran
    obtain ⟨rfl, rfl⟩ := pure_ok.mp ran
    exact ⟨by rw [Definition.body, written], rfl⟩

theorem readBody_answers {definition : Definition} {statements : List Statement}
    (read : definition.body = .ok statements) (before : Work) :
    ∃ after, readBody definition before = (.ok statements, after) ∧ after.scope = before.scope := by
  cases written : definition.statements with
  | some tree =>
    simp only [Definition.body, written] at read
    have steady := (Statement.listOfTree_steady tree).result_eq before.events
    simp only [readBody, written]
    exact ⟨_, Prod.ext (steady.trans read) rfl, rfl⟩
  | none =>
    simp only [Definition.body, written, Except.ok.injEq] at read
    simp only [readBody, written, read]
    exact ⟨before, rfl, rfl⟩

/-- What a function comes out as does not depend on what was reported before. -/
theorem ofDefinition_iff {signatures : Signatures} {definition : Definition} {function : Function}
    (events : List Event) :
    (∃ reported, ofDefinition signatures definition events = (.ok function, reported)) ↔
      definition.Becomes signatures function := by
  constructor
  · rintro ⟨reported, ran⟩
    obtain ⟨_, noted, _, ran⟩ := bind_ok.mp ran
    obtain ⟨codes, reported, assembled, ran⟩ := bind_ok.mp ran
    obtain ⟨_, inner, _⟩ := Action.inNewScope_ok.mp assembled
    obtain ⟨_, declaring, declared, inner⟩ := bind_ok.mp inner
    obtain ⟨statements, reading, read, coded⟩ := bind_ok.mp inner
    obtain ⟨body, same⟩ := readBody_ok read
    obtain ⟨taken, answers⟩ := statementCodes_repeats (.refl _) statements _ _ _ coded
    rw [same] at taken
    obtain ⟨finished, again, _⟩ := answers declaring _ (by rw [same]; exact .refl _) taken
    refine ⟨statements, codes, body, ⟨_, _, rfl, declaring, declared, again⟩, ?_, ?_⟩
    · intro declaresResult
      by_contra falls
      rw [if_pos ⟨declaresResult, by simpa using falls⟩] at ran
      obtain ⟨_, _, thrown, _⟩ := bind_ok.mp ran
      exact throw_ok thrown
    · split at ran
      next =>
        obtain ⟨_, _, thrown, _⟩ := bind_ok.mp ran
        exact (throw_ok thrown).elim
      next => exact (pure_ok.mp ran).1.symm
  · rintro ⟨statements, codes, read, ⟨before, after, fresh, middle, declared, coded⟩, returns, rfl⟩
    let start : Work := ⟨.initial, events ++ [.assembling definition.name]⟩
    obtain ⟨taken, answers⟩ := declareParameters_repeats definition _ _ _ declared
    rw [fresh] at taken answers
    obtain ⟨ready, declared', same⟩ := answers start _ (.refl _) taken
    obtain ⟨reading, read', kept⟩ := readBody_answers read ready
    obtain ⟨passed, answers'⟩ := statementCodes_repeats (.refl _) statements _ _ _ coded
    rw [← same, ← kept] at passed answers'
    obtain ⟨finished, coded', _⟩ := answers' reading _ (.refl _) passed
    have inner : (do
        declareParameters definition.parameters
        statementCodes (definition.context signatures) (← readBody definition)) start = (.ok codes, finished) :=
      bind_ok.mpr ⟨(), ready, declared', bind_ok.mpr ⟨statements, reading, read', coded'⟩⟩
    refine ⟨finished.events, bind_ok.mpr ⟨(), start.events, rfl, bind_ok.mpr ⟨codes, finished.events, ?_, ?_⟩⟩⟩
    · exact Action.inNewScope_ok.mpr ⟨finished, inner, rfl⟩
    · rw [if_neg (by simpa using returns)]
      rfl

theorem ofDefinition_accepts {signatures : Signatures} {definition : Definition}
    (accepted : (ofDefinition signatures definition).result.isOk = true) :
    ∃ statements, definition.Accepts signatures statements := by
  obtain ⟨function, written⟩ := except_isOk.mp accepted
  obtain ⟨statements, codes, read, ⟨before, after, fresh, middle, declared, coded⟩, returns, _⟩ :=
    (ofDefinition_iff []).mp ⟨(ofDefinition signatures definition []).2, Prod.ext written rfl⟩
  have parameters := (declareParameters_repeats definition).performs _ _ _ declared
  have steps := (statementCodes_repeats (.refl _) statements).performs _ _ _ coded
  rw [fresh] at parameters
  exact ⟨statements, read, ⟨_, Scope.run_append.mpr ⟨_, parameters, steps⟩⟩, _, _, _, coded, returns⟩

end Function

namespace Definition

variable {signatures other : Signatures} {definition : Definition} {function : Function}

theorem Becomes.unique {again : Function} (becomes : definition.Becomes signatures function)
    (same : definition.Becomes signatures again) : function = again := by
  obtain ⟨reported, ran⟩ := (Function.ofDefinition_iff []).mpr becomes
  obtain ⟨reported', ran'⟩ := (Function.ofDefinition_iff []).mpr same
  cases ran.symm.trans ran'
  rfl

theorem Becomes.name (becomes : definition.Becomes signatures function) : function.name = definition.name := by
  obtain ⟨_, _, _, _, _, rfl⟩ := becomes
  rfl

/-- A function comes out the same among other functions, as long as those that it may call are there
and have the same accessors. -/
theorem Becomes.carried (becomes : definition.Becomes signatures function) (carried : signatures.CarriedBy other) :
    definition.Becomes other function := by
  obtain ⟨statements, codes, read, ⟨before, after, fresh, middle, declared, coded⟩, returns, rfl⟩ := becomes
  have repeated : (definition.context signatures).CarriedBy (definition.context other) := ⟨carried, rfl⟩
  obtain ⟨taken, answers⟩ := Function.statementCodes_repeats repeated statements _ _ _ coded
  obtain ⟨finished, same, _⟩ := answers middle _ (.refl _) taken
  exact ⟨statements, codes, read, ⟨before, finished, fresh, middle, declared, same⟩, returns, rfl⟩

end Definition

section Sample

private def tagged (tag : String) (parts : List Tree) : Tree :=
  .mapping [(tag, .sequence parts)]

private def named (name : String) : Tree :=
  .mapping [("identifier", .text name)]

private def operand (base : Tree) : Tree :=
  tagged "expression" [tagged "term" [tagged "base_expression" [base]]]

/-- A function with a result, which takes its one parameter over. -/
def Signatures.taking : Signatures :=
  ⟨[("take", ⟨[("items", .move)], true⟩)]⟩

/-- A function that gives its parameter away on one of two paths, for a value that it assigns. -/
def Definition.sample : Definition where
  name := "count"
  parameters := [⟨"items", tagged "base_type" [], .move⟩]
  resultType := some (.text "Int")
  statements := some (.sequence [
    tagged "statement" [tagged "var_statement" [operand (named "items"), named "total"]],
    tagged "statement" [tagged "if_block" [
      tagged "if_branch" [operand (named "total"), tagged "statements" [
        tagged "statement" [tagged "set_statement" [
          .mapping [("assignment_op", .text "=")],
          operand (tagged "function_call" [
            tagged "function_call_parameters" [tagged "function_call_parameter" [
              .mapping [("accessor", .text "move")], operand (named "items")]],
            named "take"]),
          named "total"]]]]]],
    tagged "statement" [tagged "return_statement" [operand (named "total")]]])

theorem Definition.sample_accepted : (Function.ofDefinition .taking .sample).result.isOk = true := by
  cbv

end Sample
end Lowering
