import Mathlib
import Lowering.Proofs.ProgramParts
import Lowering.Proofs.Signatures

/-! Functions are written out independently of each other. All that one needs to know of the others
is under which accessors their parameters are passed, and the order in which they stand does not
matter. -/

namespace Lowering

/-- A relation that leaves no choice is a function on the lists that it relates. -/
theorem exists_map (related : α → β → Prop) [Nonempty β]
    (unique : ∀ item value other, related item value → related item other → value = other) :
    ∃ f : α → β, ∀ items values, List.Forall₂ related items values →
      values = items.map f ∧ ∀ item ∈ items, related item (f item) := by
  classical
  have chosen item : ∃ value, ∀ other, related item other → other = value := by
    by_cases holds : ∃ value, related item value
    · obtain ⟨value, related⟩ := holds
      exact ⟨value, fun other same => unique item other value same related⟩
    · exact ⟨Classical.arbitrary β, fun other related => absurd ⟨other, related⟩ holds⟩
  choose f selects using chosen
  refine ⟨f, fun items values matched => ?_⟩
  have same : values = items.map f := by
    induction matched with
    | nil => rfl
    | cons holds _ ih => rw [List.map_cons, ← ih, selects _ _ holds]
  refine ⟨same, ?_⟩
  rw [same, List.forall₂_map_right_iff, List.forall₂_same] at matched
  exact matched

/-- The functions of one document are in another one too, with the same accessors. -/
def Definition.CalledAlike (definitions others : List Definition) : Prop :=
  ∀ definition ∈ definitions, ∃ other ∈ others,
    other.name = definition.name ∧ other.signature.accessors = definition.signature.accessors

theorem Signatures.table_carriedBy {definitions others : List Definition}
    (distinct : (definitions.map Definition.name).Nodup) (distinct' : (others.map Definition.name).Nodup)
    (alike : Definition.CalledAlike definitions others) : (table definitions).CarriedBy (table others) := by
  intro name signature found
  obtain ⟨definition, member, rfl, rfl⟩ := (get?_table distinct).mp found
  obtain ⟨other, there, named, same⟩ := alike definition member
  exact ⟨other.signature, (get?_table distinct').mpr ⟨other, there, named, rfl⟩, same⟩

namespace Program

private instance : Nonempty Function := ⟨⟨"", [], none, [], ""⟩⟩

variable {program : Program} {signatures : Signatures} {definitions : List Definition}

theorem names_of_becomes {functions : List Function}
    (becomes : List.Forall₂ (Definition.Becomes signatures) definitions functions) :
    functions.map Function.name = definitions.map Definition.name := by
  induction becomes with
  | nil => rfl
  | cons first _ ih => rw [List.map_cons, List.map_cons, first.name, ih]

theorem find?_iff (distinct : (program.functions.map Function.name).Nodup) {name : String} {function : Function} :
    program.find? name = some function ↔ function ∈ program.functions ∧ function.name = name := by
  unfold find?
  constructor
  · intro found
    exact ⟨List.mem_of_find?_eq_some found, by simpa using List.find?_some found⟩
  · rintro ⟨member, rfl⟩
    cases found : program.functions.find? fun other => other.name = function.name with
    | none => simpa using List.find?_eq_none.mp found function member
    | some other =>
      have named : other.name = function.name := by simpa using List.find?_some found
      rw [List.inj_on_of_nodup_map distinct (List.mem_of_find?_eq_some found) member named]

theorem find?_definition {tree : Tree} (accepted : (ofTree tree).result = .ok program)
    (parsed : Definition.listOfTree tree = .ok definitions) {definition : Definition} (member : definition ∈ definitions) :
    ∃ function, program.find? definition.name = some function ∧ definition.Becomes (.table definitions) function := by
  obtain ⟨same, parsed', distinct, _, becomes⟩ := ofTree_ok.mp accepted
  cases parsed.symm.trans parsed'
  rw [← names_of_becomes becomes] at distinct
  obtain ⟨function, there, comesOut⟩ := exists_of_forall₂ becomes member
  exact ⟨function, (find?_iff distinct).mpr ⟨there, comesOut.name⟩, comesOut⟩

/-- The functions of a document in another order are the same functions in that order. -/
theorem reorders {wrapped : Bool} {parts : List Tree}
    (accepted : (ofTree (.ofFunctions wrapped parts)).result = .ok program) :
    ∃ compiled : Tree → Function, program.functions = parts.map compiled ∧
      ∀ permuted, parts.Perm permuted →
        ∃ reordered, (ofTree (.ofFunctions wrapped permuted)).result = .ok reordered ∧
          reordered.functions = permuted.map compiled ∧ ∀ name, reordered.find? name = program.find? name := by
  obtain ⟨definitions, parsed, distinct, started, becomes⟩ := ofTree_ok.mp accepted
  have : Nonempty Definition := ⟨⟨"", [], none, none⟩⟩
  obtain ⟨read, reads⟩ := exists_map (fun part definition => Definition.ofPart part = .ok definition)
    fun _ _ _ one other => Except.ok.inj (one.symm.trans other)
  obtain ⟨write, writes⟩ := exists_map (Definition.Becomes (.table definitions))
    fun _ _ _ one other => one.unique other
  obtain ⟨rfl, reads⟩ := reads _ _ (mapM_ok.mp (Definition.listOfTree_ofFunctions.mp parsed))
  obtain ⟨listed, writes⟩ := writes _ _ becomes
  rw [List.map_map] at listed
  refine ⟨write ∘ read, listed, fun permuted moved => ?_⟩
  have sorted : (parts.map read).Perm (permuted.map read) := moved.map read
  have distinct' := (sorted.map Definition.name).nodup_iff.mp distinct
  have alike : Definition.CalledAlike (parts.map read) (permuted.map read) :=
    fun definition member => ⟨definition, sorted.mem_iff.mp member, rfl, rfl⟩
  have accepted' : (ofTree (.ofFunctions wrapped permuted)).result = .ok ⟨permuted.map (write ∘ read)⟩ := by
    refine ofTree_ok.mpr ⟨permuted.map read, ?_, distinct', (sorted.map _).mem_iff.mp started, ?_⟩
    · rw [Definition.listOfTree_ofFunctions, mapM_ok, List.forall₂_map_right_iff, List.forall₂_same]
      exact fun part member => reads part (moved.mem_iff.mpr member)
    · rw [← List.map_map, List.forall₂_map_right_iff, List.forall₂_same]
      intro definition member
      exact (writes definition (sorted.mem_iff.mpr member)).carried (Signatures.table_carriedBy distinct distinct' alike)
  refine ⟨_, accepted', rfl, fun name => Option.ext fun function => ?_⟩
  have names : (program.functions.map Function.name).Nodup := by rwa [names_of_becomes becomes]
  have shuffled : program.functions.Perm (permuted.map (write ∘ read)) := by
    rw [listed]
    exact moved.map _
  rw [find?_iff names, find?_iff ((shuffled.map _).nodup_iff.mp names), shuffled.mem_iff]

/-- In an accepted program the functions may stand in any other order and come out the same. A
function that another accepted program has as well comes out the same there, whatever the other
functions are, as long as those of the first program are there and have the same accessors. -/
theorem functions_independent {tree : Tree} (accepted : (ofTree tree).result = .ok program) :
    ∃ wrapped parts, tree = .ofFunctions wrapped parts ∧
      (∃ compiled : Tree → Function, program.functions = parts.map compiled ∧
        ∀ permuted, parts.Perm permuted →
          ∃ reordered, (ofTree (.ofFunctions wrapped permuted)).result = .ok reordered ∧
            reordered.functions = permuted.map compiled ∧ ∀ name, reordered.find? name = program.find? name) ∧
      ∀ (other : Tree) (changed : Program) (definitions others : List Definition),
        (ofTree other).result = .ok changed → Definition.listOfTree tree = .ok definitions →
          Definition.listOfTree other = .ok others → Definition.CalledAlike definitions others →
            ∀ definition ∈ definitions, definition ∈ others →
              ∃ function, program.find? definition.name = some function ∧
                changed.find? definition.name = some function := by
  obtain ⟨definitions, parsed, distinct, started, _⟩ := ofTree_ok.mp accepted
  have nonempty : definitions ≠ [] := by
    rintro rfl
    cases started
  obtain ⟨wrapped, parts, rfl⟩ := Definition.exists_parts parsed nonempty
  refine ⟨wrapped, parts, rfl, reorders accepted, ?_⟩
  intro other changed definitions' others accepted' parsed' parsedOther alike definition member there
  cases parsed.symm.trans parsed'
  obtain ⟨function, found, becomes⟩ := find?_definition accepted parsed member
  obtain ⟨function', found', becomes'⟩ := find?_definition accepted' parsedOther there
  obtain ⟨_, same, distinct', _, _⟩ := ofTree_ok.mp accepted'
  cases parsedOther.symm.trans same
  have carried := becomes.carried (Signatures.table_carriedBy distinct distinct' alike)
  exact ⟨function, found, by rw [found', carried.unique becomes']⟩

section Sample

private def functionPart (name : String) (statements : List Tree) : Tree :=
  .mapping [("function", .sequence [.mapping [("identifier", .text name)],
    .mapping [("statements", .sequence statements)]])]

private def statementPart (tag : String) (parts : List Tree) : Tree :=
  .mapping [("statement", .sequence [.mapping [(tag, .sequence parts)]])]

/-- A call without arguments, as a statement. -/
private def callPart (function : String) : Tree :=
  statementPart "run_statement" [.mapping [("term", .sequence [.mapping [("base_expression", .sequence
    [.mapping [("function_call", .sequence [.mapping [("identifier", .text function)]])]])]])]]

/-- A document with a function that has some body and one that calls it. -/
private def calling (statements : List Tree) : List Tree :=
  [functionPart "rest" statements, functionPart "main" [callPart "rest"]]

private theorem read_calling (statements : List Tree) :
    Definition.listOfTree (.ofFunctions true (calling statements)) = .ok
      [⟨"rest", [], none, some (.sequence statements)⟩, ⟨"main", [], none, some (.sequence [callPart "rest"])⟩] := by
  cbv

/-- The two functions may stand the other way round, and the one that is called may get another
body. -/
theorem sample_independent : ∃ program, (ofTree (.ofFunctions true (calling []))).result = .ok program ∧
    (∃ (compiled : Tree → Function) (reordered : Program),
      (ofTree (.ofFunctions true (calling []).reverse)).result = .ok reordered ∧
        program.functions = (calling []).map compiled ∧ reordered.functions = (calling []).reverse.map compiled) ∧
    ∃ changed function,
      (ofTree (.ofFunctions true (calling [statementPart "return_statement" []]))).result = .ok changed ∧
        program.find? "main" = some function ∧ changed.find? "main" = some function := by
  obtain ⟨program, accepted⟩ := except_isOk.mp
    (by cbv : (ofTree (.ofFunctions true (calling []))).result.isOk = true)
  obtain ⟨changed, accepted'⟩ := except_isOk.mp
    (by cbv : (ofTree (.ofFunctions true (calling [statementPart "return_statement" []]))).result.isOk = true)
  obtain ⟨wrapped, parts, same, ⟨compiled, listed, reorders⟩, untouched⟩ := functions_independent accepted
  obtain ⟨rfl, rfl⟩ : wrapped = true ∧ parts = calling [] := by
    cases wrapped <;> simp_all [Tree.ofFunctions]
  refine ⟨program, accepted, ?_, ?_⟩
  · obtain ⟨reordered, accepted'', listed', _⟩ := reorders _ (List.reverse_perm _).symm
    exact ⟨compiled, reordered, accepted'', listed, listed'⟩
  · have alike := untouched _ changed _ _ accepted' (read_calling _) (read_calling _) fun definition member => by
      rcases List.mem_pair.mp member with rfl | rfl
      · exact ⟨_, List.mem_cons_self, rfl, rfl⟩
      · exact ⟨_, List.mem_cons_of_mem _ List.mem_cons_self, rfl, rfl⟩
    obtain ⟨function, found, found'⟩ := alike ⟨"main", [], none, some (.sequence [callPart "rest"])⟩ (by simp) (by simp)
    exact ⟨changed, function, accepted', found, found'⟩

end Sample

end Program
end Lowering
