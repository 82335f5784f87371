import Lowering.Program
import Lowering.Proofs.AcceptedBodies
import Lowering.Proofs.TreeEntries

/-! What a program is made of. Each function stands in a part of its own that is read by itself;
all that the parts have to do with each other is that their names are distinct and one of them
is that of the entry. -/

namespace Lowering

/-- The document whose functions stand in these parts. It may be alone in a sequence. -/
def Tree.ofFunctions (wrapped : Bool) (parts : List Tree) : Tree :=
  if wrapped then .sequence [.mapping [("functions", .sequence parts)]]
  else .mapping [("functions", .sequence parts)]

namespace Definition

/-- Reads a part of a document as a function. -/
def ofPart (part : Tree) : Except Error Definition := do
  let node ← part.node
  node.checkTag "function"
  ofTree node.content

theorem ofPart_ok {part : Tree} {definition : Definition} :
    ofPart part = .ok definition ↔
      ∃ content, part = .mapping [("function", content)] ∧ ofTree content = .ok definition := by
  simp only [ofPart, except_bind_ok, Tree.node, Node.ofPart_ok, Node.checkTag_ok, exists_const]
  constructor
  · rintro ⟨node, same, named, read⟩
    rw [named] at same
    exact ⟨node.content, same, read⟩
  · rintro ⟨content, rfl, read⟩
    exact ⟨⟨"function", content, by simp; omega⟩, rfl, rfl, read⟩

/-- Reading every node first and their contents after that makes no difference. -/
private theorem listOfNodes_ok {tree : Tree} (parts : List Tree) (held : ∀ part ∈ parts, sizeOf part ≤ sizeOf tree)
    (definitions : List Definition) :
    (∃ nodes : List (Node tree), Node.ofParts parts held = .ok nodes ∧
      (nodes.mapM fun node => do node.checkTag "function"; ofTree node.content) = .ok definitions) ↔
        parts.mapM ofPart = .ok definitions := by
  induction parts generalizing definitions with
  | nil => simp [Node.ofParts]
  | cons part parts ih =>
    simp only [Node.ofParts, List.mapM_cons, except_bind_ok, except_pure, Except.ok.injEq, Node.ofPart_ok, ofPart_ok]
    constructor
    · rintro ⟨_, ⟨node, same, rest, later, rfl⟩, read⟩
      simp only [List.mapM_cons, except_bind_ok, Node.checkTag_ok, except_pure, Except.ok.injEq] at read
      obtain ⟨definition, ⟨_, named, first⟩, definitions, others, rfl⟩ := read
      rw [named] at same
      exact ⟨definition, ⟨node.content, same, first⟩, definitions, (ih _ _).mp ⟨rest, later, others⟩, rfl⟩
    · rintro ⟨definition, ⟨content, rfl, first⟩, definitions, others, rfl⟩
      have smaller : sizeOf content < sizeOf tree := by
        have := held _ List.mem_cons_self
        simp at this
        omega
      obtain ⟨rest, later, read⟩ := (ih (fun other member => held other (List.mem_cons_of_mem _ member)) _).mpr others
      refine ⟨_, ⟨⟨"function", content, smaller⟩, rfl, rest, later, rfl⟩, ?_⟩
      simp only [List.mapM_cons, except_bind_ok, Node.checkTag_ok, except_pure, Except.ok.injEq]
      exact ⟨definition, ⟨(), trivial, first⟩, definitions, read, rfl⟩

theorem listOfTree_ofFunctions {wrapped : Bool} {parts : List Tree} {definitions : List Definition} :
    listOfTree (.ofFunctions wrapped parts) = .ok definitions ↔ parts.mapM ofPart = .ok definitions := by
  have unwrapped : document (.ofFunctions wrapped parts) = .ok (.mapping [("functions", .sequence parts)]) := by
    cases wrapped <;> rfl
  have held : ∀ part ∈ parts, sizeOf part ≤ sizeOf (Tree.mapping [("functions", .sequence parts)]) := by
    intro part member
    have := List.sizeOf_lt_of_mem member
    simp
    omega
  rw [← listOfNodes_ok parts held, ← except_bind_ok]
  simp only [listOfTree, unwrapped]
  rfl

theorem document_ok {tree inner : Tree} (unwrapped : document tree = .ok inner) :
    tree = .sequence [inner] ∨ tree = inner := by
  unfold document at unwrapped
  split at unwrapped
  next => cases unwrapped; exact .inl rfl
  next => cases unwrapped
  next => cases unwrapped; exact .inr rfl

theorem exists_parts {tree : Tree} {definitions : List Definition} (read : listOfTree tree = .ok definitions)
    (nonempty : definitions ≠ []) : ∃ wrapped parts, tree = .ofFunctions wrapped parts := by
  simp only [listOfTree, except_bind_ok, Tree.node, Node.ofPart_ok, Node.checkTag_ok] at read
  obtain ⟨inner, unwrapped, node, same, _, named, children, listed, read⟩ := read
  rw [named] at same
  have sequence : ∃ parts, node.content = .sequence parts := by
    unfold Node.children Node.sequenceOf at listed
    split at listed
    next parts _ content _ => exact ⟨parts, content⟩
    next => cases listed; cases read; exact absurd rfl nonempty
    next => cases listed; cases read; exact absurd rfl nonempty
    next => cases listed
  obtain ⟨parts, content⟩ := sequence
  rw [content] at same
  rcases document_ok unwrapped with rfl | rfl
  · exact ⟨true, parts, congrArg (Tree.sequence [·]) same⟩
  · exact ⟨false, parts, same⟩

end Definition

namespace Signatures

/-- The signatures of definitions with distinct names. -/
def table (definitions : List Definition) : Signatures :=
  ⟨(definitions.map fun definition => (definition.name, definition.signature)).reverse⟩

theorem insert_ok {signatures grown : Signatures} {name : String} {signature : Signature} :
    signatures.insert name signature = .ok grown ↔
      name ∉ signatures.entries.map Prod.fst ∧ ⟨(name, signature) :: signatures.entries⟩ = grown := by
  rw [← lookup_eq_none]
  unfold insert contains get?
  cases signatures.entries.lookup name <;> simp

private theorem collect_ok {definitions : List Definition} {begun collected : Signatures} :
    definitions.foldlM (fun signatures definition => signatures.insert definition.name definition.signature) begun =
        .ok collected ↔
      (definitions.map Definition.name).Nodup ∧
      (∀ definition ∈ definitions, definition.name ∉ begun.entries.map Prod.fst) ∧
      ⟨(table definitions).entries ++ begun.entries⟩ = collected := by
  induction definitions generalizing begun with
  | nil => simp [table]
  | cons definition rest ih =>
    have entries : (table (definition :: rest)).entries ++ begun.entries =
        (table rest).entries ++ (definition.name, definition.signature) :: begun.entries := by
      simp [table]
    simp only [List.foldlM_cons, except_bind_ok, insert_ok, ih, entries, List.map_cons, List.nodup_cons,
      List.forall_mem_cons]
    constructor
    · rintro ⟨_, ⟨new, rfl⟩, distinct, unused, rfl⟩
      simp only [List.map_cons, List.mem_cons, not_or] at unused
      refine ⟨⟨fun member => ?_, distinct⟩, ⟨new, fun other member => (unused other member).2⟩, rfl⟩
      obtain ⟨other, inRest, same⟩ := List.mem_map.mp member
      exact (unused other inRest).1 same
    · rintro ⟨⟨fresh, distinct⟩, ⟨new, unused⟩, rfl⟩
      refine ⟨_, ⟨new, rfl⟩, distinct, fun other member => ?_, rfl⟩
      simp only [List.map_cons, List.mem_cons, not_or]
      exact ⟨fun same => fresh (List.mem_map.mpr ⟨other, member, same⟩), unused other member⟩

theorem ofDefinitions_ok {definitions : List Definition} {signatures : Signatures} :
    ofDefinitions definitions = .ok signatures ↔
      (definitions.map Definition.name).Nodup ∧ table definitions = signatures := by
  rw [ofDefinitions, collect_ok]
  simp

theorem get?_table {definitions : List Definition} (distinct : (definitions.map Definition.name).Nodup)
    {name : String} {signature : Signature} :
    (table definitions).get? name = some signature ↔
      ∃ definition ∈ definitions, definition.name = name ∧ definition.signature = signature := by
  have keys : ((table definitions).entries.map Prod.fst).Nodup := by
    simpa [table, Function.comp_def] using distinct
  rw [get?, lookup_iff_mem keys]
  simp [table]

theorem contains_table {definitions : List Definition} {name : String} :
    (table definitions).contains name = true ↔ name ∈ definitions.map Definition.name := by
  rw [contains, get?, Option.isSome_iff_ne_none, Ne, lookup_eq_none, not_not]
  simp [table]

end Signatures

namespace Program

theorem functions_ok {signatures : Signatures} {definitions : List Definition} {functions : List Function}
    (events : List Event) :
    (∃ reported, definitions.mapM (Function.ofDefinition signatures) events = (.ok functions, reported)) ↔
      List.Forall₂ (Definition.Becomes signatures) definitions functions := by
  induction definitions generalizing functions events with
  | nil =>
    simp only [List.mapM_nil, pure_ok, List.forall₂_nil_left_iff]
    exact ⟨fun ⟨_, same, _⟩ => same.symm, fun same => ⟨events, same.symm, rfl⟩⟩
  | cons definition rest ih =>
    simp only [List.mapM_cons, bind_ok, pure_ok, List.forall₂_cons_left_iff]
    constructor
    · rintro ⟨reported, function, middle, first, functions, last, later, rfl, rfl⟩
      exact ⟨function, functions, (Function.ofDefinition_iff events).mp ⟨middle, first⟩, (ih middle).mp ⟨last, later⟩, rfl⟩
    · rintro ⟨function, functions, first, later, rfl⟩
      obtain ⟨middle, written⟩ := (Function.ofDefinition_iff events).mpr first
      obtain ⟨last, others⟩ := (ih middle).mpr later
      exact ⟨last, function, middle, written, functions, last, others, rfl, rfl⟩

/-- A tree is accepted exactly if functions can be read from it that have distinct names, one of them
that of the entry, and each of them comes out among the signatures of all. -/
theorem ofTree_ok {tree : Tree} {program : Program} :
    (ofTree tree).result = .ok program ↔
      ∃ definitions, Definition.listOfTree tree = .ok definitions ∧
        (definitions.map Definition.name).Nodup ∧ entry ∈ definitions.map Definition.name ∧
        List.Forall₂ (Definition.Becomes (.table definitions)) definitions program.functions := by
  constructor
  · intro answered
    have ran : ofTree tree [] = (.ok program, (ofTree tree []).2) := Prod.ext answered rfl
    obtain ⟨definitions, _, read, ran⟩ := bind_ok.mp ran
    obtain ⟨parsed, rfl⟩ := lift_ok.mp read
    obtain ⟨signatures, reported, gathered, ran⟩ := bind_ok.mp ran
    obtain ⟨_, _, collected, gathered⟩ := bind_ok.mp gathered
    obtain ⟨inserted, rfl⟩ := lift_ok.mp collected
    obtain ⟨distinct, rfl⟩ := Signatures.ofDefinitions_ok.mp inserted
    obtain ⟨_, _, _, gathered⟩ := bind_ok.mp gathered
    obtain ⟨rfl, _⟩ := pure_ok.mp gathered
    split at ran
    next =>
      obtain ⟨_, _, thrown, _⟩ := bind_ok.mp ran
      exact (throw_ok thrown).elim
    next started =>
      obtain ⟨functions, _, written, ran⟩ := bind_ok.mp ran
      obtain ⟨_, _, _, ran⟩ := bind_ok.mp ran
      obtain ⟨rfl, _⟩ := pure_ok.mp ran
      exact ⟨definitions, parsed, distinct, Signatures.contains_table.mp (by simpa using started),
        (functions_ok _).mp ⟨_, written⟩⟩
  · rintro ⟨definitions, parsed, distinct, started, becomes⟩
    have inserted := Signatures.ofDefinitions_ok.mpr ⟨distinct, rfl⟩
    let collected : List Event := [.collected (Signatures.table definitions).size]
    obtain ⟨reported, written⟩ := (functions_ok collected).mpr becomes
    have ran : ofTree tree [] = (.ok program, reported ++ [.lowered program.functions.length]) := by
      refine bind_ok.mpr ⟨definitions, [], lift_ok.mpr ⟨parsed, rfl⟩, ?_⟩
      refine bind_ok.mpr ⟨.table definitions, collected, ?_, ?_⟩
      · exact bind_ok.mpr ⟨_, [], lift_ok.mpr ⟨inserted, rfl⟩, rfl⟩
      · rw [if_neg (by simpa using Signatures.contains_table.mpr started)]
        exact bind_ok.mpr ⟨program.functions, reported, written, rfl⟩
    exact congrArg Prod.fst ran

end Program
end Lowering
