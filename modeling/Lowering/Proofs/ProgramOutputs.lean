import Mathlib
import Lowering.Proofs.FunctionIndependence
import Lowering.Proofs.Indentation
import Lowering.Proofs.Openings
import Lowering.Proofs.ProgramText

/-! The two outputs of a program. The bodies alone always come out; the complete program comes out if the
entry can start it and everything that a line declares has a text, and then it holds the same bodies. -/

namespace Lowering

open Lowering.Layout (flat outdent?)

/-- A function as it stands in the text of a program: its name, what else is in the line that opens its
block, and the lines between that line and the brace that closes the block. -/
structure Item where
  name : String
  rest : String
  inside : String

namespace Item

def text (item : Item) : String :=
  "fn " ++ item.name ++ "(" ++ item.rest ++ " \x7b\n" ++ item.inside ++ "\x7d\n"

/-- The item is the function: it has its name, one line leads into the block, and the block has the lines
of its body, each of them one level deeper. -/
structure Shows (item : Item) (function : Function) : Prop where
  named : Name.code function.name = .ok item.name
  line : '\n' ∉ (item.name ++ "(" ++ item.rest).toList
  whole : Layout.breaks true item.inside.toList = true
  body : outdent? 1 item.inside.toList = some function.body.toList

end Item

theorem Name.code_isOk {name : String} : (∃ text, Name.code name = .ok text) ↔ Name.isValid name = true := by
  unfold Name.code
  split
  next valid => exact iff_of_true ⟨_, rfl⟩ valid
  next odd =>
    refine iff_of_false ?_ odd
    intro ⟨text, thrown⟩
    cases thrown

/-- A parameter has a text exactly if its name and its type have one, whatever its accessor is. -/
theorem Parameter.code_isOk {parameter : Parameter} : (∃ text, parameter.code = .ok text) ↔
    Name.isValid parameter.name = true ∧ ∃ type, DeclaredType.code parameter.type = .ok type := by
  rw [← Name.code_isOk]
  simp only [code, except_bind_ok]
  constructor
  · intro written
    obtain ⟨_, name, spelled, type, declared, _⟩ := written
    exact ⟨⟨name, spelled⟩, type, declared⟩
  · intro declarable
    obtain ⟨⟨name, spelled⟩, type, declared⟩ := declarable
    cases parameter.accessor with
    | look | mutate | move | copy => exact ⟨_, name, spelled, type, declared, rfl⟩

namespace Function

variable {function : Function}

/-- Everything that the line of the function declares has a text. -/
def Declarable (function : Function) : Prop :=
  Name.isValid function.name = true ∧
    (∀ parameter ∈ function.parameters,
      Name.isValid parameter.name = true ∧ ∃ type, DeclaredType.code parameter.type = .ok type) ∧
    ∀ result ∈ function.resultType, ∃ type, DeclaredType.code result = .ok type

private theorem exists_results {type : Option Tree} :
    (∃ result, Results type result) ↔ ∀ tree ∈ type, ∃ text, DeclaredType.code tree = .ok text := by
  constructor
  · intro ⟨result, results⟩ tree member
    cases member
    cases results with
    | some written => exact ⟨_, written⟩
  · intro each
    cases type with
    | none => exact ⟨"", .none⟩
    | some tree =>
      obtain ⟨text, written⟩ := each tree rfl
      exact ⟨_, .some written⟩

theorem code_isOk : (∃ text, function.code = .ok text) ↔ function.Declarable := by
  have listed : (∃ texts, List.Forall₂ (fun parameter text => Parameter.code parameter = .ok text)
      function.parameters texts) ↔ ∀ parameter ∈ function.parameters,
        Name.isValid parameter.name = true ∧ ∃ type, DeclaredType.code parameter.type = .ok type :=
    exists_forall₂.trans (forall₂_congr fun _ _ => Parameter.code_isOk)
  rw [Declarable, ← Name.code_isOk, ← listed, ← exists_results]
  constructor
  · intro ⟨text, written⟩
    obtain ⟨_, ⟨name, parameters, result, spelled, each, results, _⟩, _⟩ := code_ok.mp written
    exact ⟨⟨name, spelled⟩, ⟨parameters, each⟩, result, results⟩
  · intro ⟨⟨name, spelled⟩, ⟨parameters, each⟩, result, results⟩
    exact ⟨_, code_ok.mpr ⟨_, ⟨name, parameters, result, spelled, each, results, rfl⟩, rfl⟩⟩

theorem code_item {text : String} (whole : Layout.breaks true function.body.toList = true)
    (written : function.code = .ok text) :
    ∃ item : Item, item.Shows function ∧ item.text = text := by
  obtain ⟨head, heads, rfl⟩ := code_ok.mp written
  have even := (leads_neat heads).1
  obtain ⟨name, parameters, result, spelled, _, _, rfl⟩ := heads
  refine ⟨⟨name, ", ".intercalate parameters ++ ")" ++ result, Layout.indent 1 function.body⟩, ⟨spelled, ?_, ?_, ?_⟩, ?_⟩
  · intro member
    refine (Layout.flat_iff.mp even '\n' ?_).1 rfl
    simp only [String.append_assoc] at member ⊢
    rw [String.toList_append]
    exact List.mem_append_right _ member
  · rwa [Layout.toList_indent, Layout.breaks_shift]
  · rw [Layout.indent, String.toList_ofList]
    exact Layout.outdent?_indent 1 _
  · simp only [Item.text, String.append_assoc]

end Function

namespace Program

variable {program : Program} {text : String}

/-- The entry takes no parameters and gives nothing back. -/
def Startable (program : Program) : Prop :=
  ∃ main, program.find? entry = some main ∧ main.parameters = [] ∧ main.resultType = none

theorem code_isOk :
    (∃ text, program.code = .ok text) ↔ program.Startable ∧ ∀ function ∈ program.functions, function.Declarable := by
  have listed : (∃ texts, List.Forall₂ (fun function text => Function.code function = .ok text) program.functions texts) ↔
      ∀ function ∈ program.functions, function.Declarable :=
    exists_forall₂.trans (forall₂_congr fun _ _ => Function.code_isOk)
  rw [← listed]
  simp only [code_ok]
  constructor
  · intro ⟨_, started, texts, each, _⟩
    exact ⟨started, texts, each⟩
  · intro ⟨started, texts, each⟩
    exact ⟨_, started, texts, each, rfl⟩

/-- The texts of functions are those of items, each of which shows its function. -/
private theorem exists_items {functions : List Function} {texts : List String}
    (whole : ∀ function ∈ functions, Layout.breaks true function.body.toList = true)
    (each : List.Forall₂ (fun function text => Function.code function = .ok text) functions texts) :
    ∃ items, List.Forall₂ Item.Shows items functions ∧ texts = items.map Item.text := by
  induction each with
  | nil => exact ⟨[], .nil, rfl⟩
  | cons written _ ih =>
    obtain ⟨first, others⟩ := List.forall_mem_cons.mp whole
    obtain ⟨item, shows, rfl⟩ := Function.code_item first written
    obtain ⟨items, later, rfl⟩ := ih others
    exact ⟨item :: items, .cons shows later, rfl⟩

private theorem names_of_shows {items : List Item} {functions : List Function}
    (each : List.Forall₂ Item.Shows items functions) :
    items.map Item.name = functions.map fun function => "sn_" ++ function.name := by
  induction each with
  | nil => rfl
  | cons shows _ ih => rw [List.map_cons, List.map_cons, Name.code_eq shows.named, ih]

/-- The complete program comes out exactly if its entry can start it and everything that is declared has a
text. Then it has an item for each function of the document in turn, whose lines are those of the
function's body. No two of them have the same name, and none has that of the block that starts them. -/
theorem outputs_agree {tree : Tree} (accepted : (ofTree tree).result = .ok program) :
    ((∃ text, program.code = .ok text) ↔ program.Startable ∧ ∀ function ∈ program.functions, function.Declarable) ∧
    (∃ definitions, Definition.listOfTree tree = .ok definitions ∧
      program.functions.map Function.name = definitions.map Definition.name) ∧
    program.bodies = String.join (program.functions.map fun function => function.body ++ "\n") ∧
    ∀ text, program.code = .ok text → ∃ items, List.Forall₂ Item.Shows items program.functions ∧
      text = assembled (items.map Item.text) ∧ (items.map Item.name).Nodup ∧ "main" ∉ items.map Item.name := by
  obtain ⟨definitions, parsed, distinct, _, becomes⟩ := ofTree_ok.mp accepted
  have named := names_of_becomes becomes
  refine ⟨code_isOk, ⟨definitions, parsed, named⟩, rfl, ?_⟩
  intro text written
  obtain ⟨_, texts, each, rfl⟩ := code_ok.mp written
  have whole : ∀ function ∈ program.functions, Layout.breaks true function.body.toList = true := by
    intro function member
    obtain ⟨definition, _, comesOut⟩ := exists_left_of_forall₂ becomes member
    exact comesOut.body_breaks
  obtain ⟨items, shown, rfl⟩ := exists_items whole each
  refine ⟨items, shown, rfl, ?_, ?_⟩
  all_goals rw [names_of_shows shown]
  · rw [← named] at distinct
    have marked : Function.Injective fun name => "sn_" ++ name := fun _ _ same => (String.append_right_inj "sn_").mp same
    simpa [Function.comp_def] using distinct.map marked
  · intro member
    obtain ⟨function, _, same⟩ := List.mem_map.mp member
    have chars := congrArg String.toList same
    rw [String.toList_append] at chars
    cases (List.cons.inj chars).1

section Sample

private def forever : List Statement :=
  [.whileLoop (.literal ⟨.bool, "true"⟩) [.breaking]]

private def foreverCode : StatementCode :=
  ⟨.whileLoop, "loop \x7b\n    break;\n\x7d\n", false⟩

private theorem forever_accepted :
    (ofTree (.ofMain forever)).result = .ok ⟨[(Definition.main forever).written [foreverCode]]⟩ := by
  refine ofTree_ofMain ?_ ⟨⟨.initial, []⟩, _, rfl, _, rfl, by cbv⟩
  simp [forever, Statement.bodyWellFormed, Statement.WellFormed, Expr.WellFormed, Literal.WellFormed]

theorem sample_outputs_agree : ∃ (program : Program) (text : String) (item : Item),
    (ofTree (.ofMain forever)).result = .ok program ∧ program.code = .ok text ∧
    text = assembled [item.text] ∧ item.name = "sn_main" ∧
      outdent? 1 item.inside.toList = some "loop \x7b\n    break;\n\x7d\n".toList ∧
      program.bodies = "loop \x7b\n    break;\n\x7d\n" ++ "\n" := by
  obtain ⟨comesOut, _, bodies, holds⟩ := outputs_agree forever_accepted
  obtain ⟨text, written⟩ := comesOut.mpr ⟨⟨_, rfl, rfl, rfl⟩, List.forall_mem_singleton.mpr ⟨by decide, nofun, nofun⟩⟩
  obtain ⟨items, shown, whole, _⟩ := holds text written
  cases shown with
  | cons shows rest =>
    cases rest
    exact ⟨_, text, _, forever_accepted, written, whole, Name.code_eq shows.named, shows.body, bodies⟩

end Sample

end Program

end Lowering
