import Mathlib
import Lowering.Proofs.FunctionIndependence
import Lowering.Proofs.Passing

/-! Calls agree with the functions that they name. A function is written out with its parameters, and
elsewhere its calls with their arguments, but both follow the accessors that the function declares. -/

namespace Lowering

namespace Expr

variable {signatures : Signatures} {function : String} {arguments : List (Accessor × Expr)} {form : Form}
  {before after : Work} {text : String}

/-- The argument of a call goes with its parameter. What is stored is given under the accessor that is
declared or as a duplicate, and the text hands it over as the text of the parameter takes it. -/
structure Fits (signatures : Signatures) (before after : Work) (parameter : Parameter) (argument : Accessor × Expr)
    (text : String) : Prop where
  accessor : argument.2.isStored = true → argument.1 = parameter.accessor ∨ argument.1 = .copy
  handed : argument.2.Plain → ∀ declared, parameter.code = .ok declared →
    ∀ passing, Hands signatures before after passing argument.2 text ↔ passing.Declares declared

/-- Behind a call the variables that it gives away are gone. -/
theorem given_away (ran : (call function arguments).code signatures form before = (.ok text, after))
    {argument : Accessor × Expr} (member : argument ∈ arguments) {root : String} (moves : argument.1 = .move)
    (rooted : argument.2.root? = some root) :
    ∃ binding, after.scope.find? root = some binding ∧ binding.moved = true := by
  have steps := code_performs signatures form _ _ _ _ ran
  simp only [Expr.steps, uses, argumentUses_eq] at steps
  have used : .pass root .move ∈ arguments.flatMap passUses :=
    List.mem_flatMap.mpr ⟨argument, member, by simp [passUses, rooted, moves]⟩
  obtain ⟨binding, found, _⟩ := Scope.run_allows steps used
  refine ⟨{ binding with moved := true }, ?_, rfl⟩
  rw [Scope.run_find? steps]
  simp only [Use.name] at found
  simp [found, used]

theorem call_fits {parameters : List Parameter} {signature : Signature}
    (found : signatures.get? function = some signature)
    (declared : signature.parameters = parameters.map fun parameter => (parameter.name, parameter.accessor))
    (ran : (call function arguments).code signatures form before = (.ok text, after)) :
    ∃ name texts, Name.code function = .ok name ∧ text = name ++ "(" ++ ", ".intercalate texts ++ ")" ∧
      List.Forall₂ (fun entry => Fits signatures before after entry.1 entry.2) (parameters.zip arguments) texts := by
  obtain ⟨_, name, texts, called, spelled, same, written⟩ := call_ok.mp ⟨after, ran⟩
  obtain ⟨found', counted⟩ := Signatures.forCall_ok.mp called
  cases found.symm.trans found'
  obtain ⟨alone, _⟩ := (argumentCodes_iff counted before texts).mp written
  rw [declared, List.zip_map_left, List.forall₂_map_left_iff] at alone
  have inCall : ∀ entry ∈ parameters.zip arguments, entry.2 ∈ arguments :=
    fun entry member => (List.of_mem_zip member).2
  refine ⟨name, texts, spelled, same, ((List.forall₂_and_left _ _).mpr ⟨inCall, alone⟩).imp ?_⟩
  rintro ⟨parameter, argument⟩ text ⟨member, alone⟩
  obtain ⟨accessor, hands⟩ := argument_hands alone fun root => given_away ran member
  -- Either text shows the way that the accessor of the parameter asks for, and shows no other.
  refine ⟨accessor, fun plain text written passing => ?_⟩
  have takes := Parameter.code_declares written
  constructor
  · intro other
    rwa [other.unique (hands plain) plain]
  · intro other
    rw [other.unique takes]
    exact hands plain

end Expr

/-- The call stands somewhere in the statements of a body. -/
def Statement.Calls (statements : List Statement) (function : String) (arguments : List (Accessor × Expr)) : Prop :=
  ∃ outer ∈ statements, ∃ inner, Within inner outer ∧ ∃ expr ∈ inner.expressions,
    Expr.Part (.call function arguments) expr

namespace Definition

variable {signatures : Signatures} {definition : Definition} {function : Function}

theorem Becomes.parameters (becomes : definition.Becomes signatures function) :
    function.parameters = definition.parameters := by
  obtain ⟨_, _, _, _, _, rfl⟩ := becomes
  rfl

/-- Every call in a function that is written out goes through. -/
theorem Becomes.calls (becomes : definition.Becomes signatures function) :
    ∃ statements, definition.body = .ok statements ∧ ∀ called arguments, Statement.Calls statements called arguments →
      ∃ form text, Action.Answers ((Expr.call called arguments).code signatures form) text := by
  obtain ⟨statements, codes, read, ⟨_, after, _, middle, _, coded⟩, _⟩ := becomes
  refine ⟨statements, read, fun called arguments calls => ?_⟩
  obtain ⟨outer, member, inner, within, expr, inStatement, part⟩ := calls
  have answers : Action.Answers (Function.statementCodes (definition.context signatures) statements) codes :=
    ⟨middle, after, coded⟩
  obtain ⟨written, comesOut⟩ := within.writes (answers.of_mapM outer member)
  have stands := part.stands (Statement.expressions_stand comesOut expr inStatement)
  obtain ⟨form, text, goes, _⟩ := stands.of_written nofun rfl nofun
  exact ⟨form, text, goes⟩

end Definition

namespace Program

/-- Every call in an accepted program names a function of the program and has an argument for each of
its parameters. Whenever it is written out, each argument goes with its parameter. -/
theorem calls_fit {tree : Tree} {program : Program} (accepted : (ofTree tree).result = .ok program) :
    ∃ definitions signatures, Definition.listOfTree tree = .ok definitions ∧
      Signatures.ofDefinitions definitions = .ok signatures ∧
      ∀ definition ∈ definitions, ∃ statements, definition.body = .ok statements ∧
        ∀ called arguments, Statement.Calls statements called arguments →
          ∃ callee, program.find? called = some callee ∧ callee.parameters.length = arguments.length ∧
            (∃ form text, Action.Answers ((Expr.call called arguments).code signatures form) text) ∧
            ∀ form before text after,
              (Expr.call called arguments).code signatures form before = (.ok text, after) →
                ∃ name texts, Name.code called = .ok name ∧ text = name ++ "(" ++ ", ".intercalate texts ++ ")" ∧
                  List.Forall₂ (fun entry => Expr.Fits signatures before after entry.1 entry.2)
                    (callee.parameters.zip arguments) texts := by
  obtain ⟨definitions, parsed, distinct, _, _⟩ := ofTree_ok.mp accepted
  refine ⟨definitions, _, parsed, Signatures.ofDefinitions_ok.mpr ⟨distinct, rfl⟩, fun definition member => ?_⟩
  obtain ⟨_, _, becomes⟩ := find?_definition accepted parsed member
  obtain ⟨statements, read, goes⟩ := becomes.calls
  refine ⟨statements, read, fun called arguments calls => ?_⟩
  obtain ⟨form, text, before, after, ran⟩ := goes called arguments calls
  obtain ⟨signature, _, _, looked, _⟩ := Expr.call_ok.mp ⟨after, ran⟩
  obtain ⟨found, counted⟩ := Signatures.forCall_ok.mp looked
  obtain ⟨other, there, rfl, rfl⟩ := (Signatures.get?_table distinct).mp found
  obtain ⟨callee, held, comesOut⟩ := find?_definition accepted parsed there
  have parameters := comesOut.parameters
  refine ⟨callee, held, ?_, ⟨form, text, before, after, ran⟩, fun _ _ _ _ ran' => ?_⟩
  · simpa [parameters, Definition.signature] using counted
  · exact Expr.call_fits found (by rw [parameters]; rfl) ran'

section Sample

private def entryOf (tag : String) (parts : List Tree) : Tree :=
  .mapping [(tag, .sequence parts)]

private def leafOf (tag text : String) : Tree :=
  .mapping [(tag, .text text)]

private def termOf (base : Tree) : Tree :=
  entryOf "term" [entryOf "base_expression" [base]]

private def wholeNumber : Tree :=
  .sequence [leafOf "base_type" "Int"]

private def parameterOf (accessor name : String) : Tree :=
  entryOf "function_parameter" [leafOf "accessor" accessor, leafOf "identifier" name, .mapping [("type", wholeNumber)]]

private def argumentOf (accessor name : String) : Tree :=
  entryOf "function_call_parameter" [leafOf "accessor" accessor,
    entryOf "expression" [termOf (leafOf "identifier" name)]]

/-- A variable and a call to which it is handed over, once to be changed and once as a duplicate. -/
private def mixed : Tree :=
  .sequence [
    entryOf "statement" [entryOf "var_statement" [
      entryOf "expression" [termOf (entryOf "literal" [leafOf "int_literal" "1"])], leafOf "identifier" "v"]],
    entryOf "statement" [entryOf "run_statement" [termOf (entryOf "function_call" [
      entryOf "function_call_parameters" [argumentOf "mutate" "v", argumentOf "copy" "v"],
      leafOf "identifier" "mix"])]]]

private def mixing : Tree :=
  .ofFunctions false [
    entryOf "function" [entryOf "function_parameters" [parameterOf "mutate" "first", parameterOf "move" "last"],
      leafOf "identifier" "mix"],
    entryOf "function" [leafOf "identifier" "main", .mapping [("statements", mixed)]]]

private def definitionsMixing : List Definition :=
  [⟨"mix", [⟨"first", wholeNumber, .mutate⟩, ⟨"last", wholeNumber, .move⟩], none, none⟩,
    ⟨"main", [], none, some mixed⟩]

private theorem read_mixing : Definition.listOfTree mixing = .ok definitionsMixing := by
  cbv

private def handed : List (Accessor × Expr) :=
  [(.mutate, .identifier "v"), (.copy, .identifier "v")]

private def statementsMixed : List Statement :=
  [.binding true "v" none (.literal ⟨.int, "1"⟩), .run (.call "mix" handed)]

private theorem read_mixed : Definition.body ⟨"main", [], none, some mixed⟩ = .ok statementsMixed := by
  cbv

private def holding : Work :=
  ⟨⟨[("v", ⟨.declared true, false, 0⟩)], [], 0⟩, []⟩

private theorem ran_mixed : (Expr.call "mix" handed).code (.table definitionsMixing) .value holding =
    (.ok "sn_mix(&mut sn_v, sn_v.clone())", ⟨holding.scope, [.call "mix" 2]⟩) := by
  cbv

theorem sample_calls_fit : ∃ program callee signatures before after texts,
    (ofTree mixing).result = .ok program ∧ program.find? "mix" = some callee ∧
    (Expr.call "mix" handed).code signatures .value before = (.ok "sn_mix(&mut sn_v, sn_v.clone())", after) ∧
    List.Forall₂ (fun entry => Expr.Fits signatures before after entry.1 entry.2) (callee.parameters.zip handed) texts := by
  obtain ⟨program, accepted⟩ := except_isOk.mp (by cbv : (ofTree mixing).result.isOk = true)
  obtain ⟨definitions, signatures, parsed, gathered, fits⟩ := calls_fit accepted
  cases read_mixing.symm.trans parsed
  obtain ⟨_, rfl⟩ := Signatures.ofDefinitions_ok.mp gathered
  obtain ⟨statements, read, fits⟩ := fits ⟨"main", [], none, some mixed⟩ (by simp [definitionsMixing])
  cases read_mixed.symm.trans read
  have calls : Statement.Calls statementsMixed "mix" handed :=
    ⟨.run (.call "mix" handed), by simp [statementsMixed], _, .self, _, List.mem_singleton_self _, .self⟩
  obtain ⟨callee, found, _, _, fits⟩ := fits "mix" handed calls
  obtain ⟨_, texts, _, _, each⟩ := fits _ _ _ _ ran_mixed
  exact ⟨program, callee, _, _, _, texts, accepted, found, ran_mixed, each⟩

end Sample

end Program

end Lowering
