import Lowering.Proofs.TreeEntries

/-! Reading a set of fields. The reader takes exactly the sequences of nodes with distinct tags, and what
it takes answers for each field that stands there and for no other. A sequence is refused for the first
part that is no node, wherever it stands, and only where every part is a node for the first tag that
comes again. -/

namespace Lowering

namespace Tree

/-- Why a part of a sequence is no node. -/
inductive Flawed : Tree → Malformation → Prop where
  | keys {entries} (several : entries.length ≠ 1) : Flawed (.mapping entries) (.keyCount entries.length)
  | other {part} (odd : part.shape ≠ .mapping) : Flawed part (.notNode part.shape)

/-- Why a tree is no sequence of nodes: it is no sequence at all, or there is a first part that is no node. -/
inductive Misshapen : Tree → Malformation → Prop where
  | whole {tree} (listless : tree.shape ≠ .sequence) (some : tree ≠ .null) (marked : tree ≠ .text "") :
    Misshapen tree (.notSequence tree.shape)
  | part {before part after cause} (nodes : ∀ earlier ∈ before, ∃ entry, earlier = .mapping [entry])
    (flawed : part.Flawed cause) : Misshapen (.sequence (before ++ part :: after)) cause

theorem node_or_flawed (part : Tree) : (∃ entry, part = .mapping [entry]) ∨ ∃ cause, part.Flawed cause := by
  by_cases mapping : part.shape = .mapping
  · cases part with
    | mapping entries =>
      by_cases one : entries.length = 1
      · obtain ⟨entry, rfl⟩ := List.length_eq_one_iff.mp one
        exact .inl ⟨entry, rfl⟩
      · exact .inr ⟨_, .keys one⟩
    | _ => cases mapping
  · exact .inr ⟨_, .other mapping⟩

end Tree

/-- The first of these tags that repeats one before it. -/
def FirstRepeat (tags : List String) (tag : String) : Prop :=
  ∃ before after, tags = before ++ tag :: after ∧ before.Nodup ∧ tag ∈ before

namespace Node

variable {tree : Tree} {error : Error}

theorem exists_ofPart {entry : String × Tree} (held : sizeOf (Tree.mapping [entry]) ≤ sizeOf tree) :
    ∃ node, ofPart (.mapping [entry]) held = .ok node :=
  ⟨_, rfl⟩

theorem ofPart_flawed {part : Tree} {cause : Malformation} (held : sizeOf part ≤ sizeOf tree)
    (flawed : part.Flawed cause) : ofPart part held = .error (.malformed cause) := by
  cases flawed with
  | @keys entries several =>
    match entries with
    | [] | _ :: _ :: _ => rfl
    | [_] => exact absurd rfl several
  | other odd =>
    cases part with
    | mapping => exact absurd rfl odd
    | _ => rfl

theorem ofPart_error {part : Tree} {held : sizeOf part ≤ sizeOf tree} :
    ofPart part held = .error error ↔ ∃ cause, part.Flawed cause ∧ error = .malformed cause := by
  constructor
  · intro refused
    obtain ⟨entry, rfl⟩ | ⟨cause, flawed⟩ := part.node_or_flawed
    · obtain ⟨node, read⟩ := exists_ofPart held
      cases read.symm.trans refused
    · cases (ofPart_flawed held flawed).symm.trans refused
      exact ⟨cause, flawed, rfl⟩
  · rintro ⟨cause, flawed, rfl⟩
    exact ofPart_flawed held flawed

/-- The first part that is no node is the one that is reported. -/
theorem ofParts_error {parts : List Tree} {held : ∀ part ∈ parts, sizeOf part ≤ sizeOf tree} :
    ofParts parts held = .error error ↔ ∃ before part after cause, parts = before ++ part :: after ∧
      (∀ earlier ∈ before, ∃ entry, earlier = .mapping [entry]) ∧ part.Flawed cause ∧ error = .malformed cause := by
  induction parts with
  | nil => simp [ofParts]
  | cons part parts ih =>
    simp only [ofParts, except_bind_error, except_pure, ofPart_error, ih]
    constructor
    · rintro (⟨cause, flawed, rfl⟩ | ⟨node, read, ⟨before, other, after, cause, rfl, nodes, flawed, rfl⟩ | ⟨_, _, none⟩⟩)
      · exact ⟨[], part, parts, cause, rfl, List.forall_mem_nil _, flawed, rfl⟩
      · refine ⟨part :: before, other, after, cause, rfl, List.forall_mem_cons.mpr ⟨⟨_, ofPart_ok.mp read⟩, nodes⟩, flawed, rfl⟩
      · cases none
    · rintro ⟨before, other, after, cause, same, nodes, flawed, rfl⟩
      cases before with
      | nil =>
        obtain ⟨rfl, rfl⟩ := List.cons.inj same
        exact .inl ⟨cause, flawed, rfl⟩
      | cons first before =>
        obtain ⟨rfl, rfl⟩ := List.cons.inj same
        obtain ⟨⟨entry, rfl⟩, later⟩ := List.forall_mem_cons.mp nodes
        obtain ⟨node, read⟩ := exists_ofPart (held _ List.mem_cons_self)
        exact .inr ⟨node, read, .inl ⟨before, other, after, cause, rfl, later, flawed, rfl⟩⟩

theorem sequenceOf_whole {part : Tree} (held : sizeOf part ≤ sizeOf tree) (listless : part.shape ≠ .sequence)
    (some : part ≠ .null) (marked : part ≠ .text "") :
    sequenceOf part held = .error (.malformed (.notSequence part.shape)) := by
  unfold sequenceOf
  split
  next => exact absurd rfl listless
  next => exact absurd rfl some
  next => exact absurd rfl marked
  next => rfl

theorem sequenceOf_error {part : Tree} {held : sizeOf part ≤ sizeOf tree} :
    sequenceOf part held = .error error ↔ ∃ cause, part.Misshapen cause ∧ error = .malformed cause := by
  constructor
  · intro refused
    by_cases sequence : part.shape = .sequence
    · cases part with
      | sequence items =>
        obtain ⟨before, part, after, cause, rfl, nodes, flawed, rfl⟩ := ofParts_error.mp refused
        exact ⟨cause, .part nodes flawed, rfl⟩
      | _ => cases sequence
    · have some : part ≠ .null := by
        rintro rfl
        cases refused
      have marked : part ≠ .text "" := by
        rintro rfl
        cases refused
      cases (sequenceOf_whole held sequence some marked).symm.trans refused
      exact ⟨_, .whole sequence some marked, rfl⟩
  · rintro ⟨cause, misshapen, rfl⟩
    cases misshapen with
    | part nodes flawed => exact ofParts_error.mpr ⟨_, _, _, _, rfl, nodes, flawed, rfl⟩
    | whole listless some marked => exact sequenceOf_whole held listless some marked

end Node

namespace Tree

variable {tree : Tree}

theorem nodes_error {error : Error} :
    tree.nodes = .error error ↔ ∃ cause, tree.Misshapen cause ∧ error = .malformed cause :=
  Node.sequenceOf_error

/-- A tree that is no sequence of nodes is misshapen, and no other is. -/
theorem exists_misshapen : (∃ cause, tree.Misshapen cause) ↔ ¬ ∃ entries, tree.Lists entries := by
  constructor
  · rintro ⟨cause, misshapen⟩ ⟨entries, listed⟩
    obtain ⟨nodes, read, _⟩ := exists_nodes listed
    cases (nodes_error.mpr ⟨cause, misshapen, rfl⟩).symm.trans read
  · intro listless
    cases read : tree.nodes with
    | ok nodes => exact absurd ⟨_, nodes_ok.mp read⟩ listless
    | error error =>
      obtain ⟨cause, misshapen, _⟩ := nodes_error.mp read
      exact ⟨cause, misshapen⟩

end Tree

namespace Fields

variable {tree : Tree} {fields : Fields tree} {construct : String}

theorem firstRepeat?_eq_some {seen tags : List String} {tag : String} :
    firstRepeat? seen tags = some tag ↔ ∃ before after, tags = before ++ tag :: after ∧ before.Nodup ∧
      (∀ other ∈ before, other ∉ seen) ∧ (tag ∈ seen ∨ tag ∈ before) := by
  induction tags generalizing seen with
  | nil => simp [firstRepeat?]
  | cons head tags ih =>
    unfold firstRepeat?
    split
    next repeated =>
      rw [Option.some.injEq]
      constructor
      · rintro rfl
        exact ⟨[], tags, rfl, .nil, List.forall_mem_nil _, .inl repeated⟩
      · rintro ⟨before, after, same, _, fresh, _⟩
        cases before with
        | nil => exact (List.cons.inj same).1
        | cons first before =>
          obtain ⟨rfl, _⟩ := List.cons.inj same
          exact absurd repeated (fresh _ List.mem_cons_self)
    next new =>
      rw [ih]
      constructor
      · rintro ⟨before, after, rfl, distinct, fresh, again⟩
        have apart : head ∉ before := fun member => fresh head member List.mem_cons_self
        refine ⟨head :: before, after, rfl, List.nodup_cons.mpr ⟨apart, distinct⟩, ?_, ?_⟩
        · exact List.forall_mem_cons.mpr ⟨new, fun other member inSeen => fresh other member (List.mem_cons_of_mem _ inSeen)⟩
        · simp only [List.mem_cons] at again ⊢
          tauto
      · rintro ⟨before, after, same, distinct, fresh, again⟩
        cases before with
        | nil =>
          obtain ⟨rfl, rfl⟩ := List.cons.inj same
          simp [new] at again
        | cons first before =>
          obtain ⟨rfl, rfl⟩ := List.cons.inj same
          obtain ⟨apart, distinct⟩ := List.nodup_cons.mp distinct
          obtain ⟨_, fresh⟩ := List.forall_mem_cons.mp fresh
          refine ⟨before, after, rfl, distinct, fun other member => ?_, ?_⟩
          · rw [List.mem_cons, not_or]
            exact ⟨fun same => apart (same ▸ member), fresh other member⟩
          · simp only [List.mem_cons] at again ⊢
            tauto

theorem ofTree_ok : ofTree tree construct = .ok fields ↔
    tree.Lists (fields.nodes.map Node.entry) ∧ (fields.nodes.map Node.tag).Nodup ∧ fields.construct = construct := by
  simp only [ofTree, except_bind_ok, Tree.nodes_ok, ofNodes_ok]
  constructor
  · rintro ⟨nodes, listed, distinct, rfl⟩
    exact ⟨listed, distinct, rfl⟩
  · rintro ⟨listed, distinct, rfl⟩
    exact ⟨_, listed, distinct, rfl⟩

theorem ofNodes_error {nodes : List (Node tree)} {error : Error} : ofNodes construct nodes = .error error ↔
    ∃ tag, FirstRepeat (nodes.map Node.tag) tag ∧ error = .duplicateField construct tag := by
  have first : ∀ {tag}, firstRepeat? [] (nodes.map Node.tag) = some tag ↔ FirstRepeat (nodes.map Node.tag) tag := by
    intro tag
    simp [firstRepeat?_eq_some, FirstRepeat]
  simp only [← first]
  unfold ofNodes
  split
  next tag found => simp [found, eq_comm]
  next none => simp [none]

theorem ofTree_error {error : Error} : ofTree tree construct = .error error ↔
    (∃ cause, tree.Misshapen cause ∧ error = .malformed cause) ∨
    ∃ entries tag, tree.Lists entries ∧ FirstRepeat (entries.map Prod.fst) tag ∧ error = .duplicateField construct tag := by
  simp only [ofTree, except_bind_error, Tree.nodes_error, ofNodes_error]
  refine or_congr_right ?_
  constructor
  · rintro ⟨nodes, read, tag, first, rfl⟩
    refine ⟨_, tag, Tree.nodes_ok.mp read, ?_, rfl⟩
    rwa [List.map_map]
  · rintro ⟨entries, tag, listed, first, rfl⟩
    obtain ⟨nodes, read, rfl⟩ := Tree.exists_nodes listed
    rw [List.map_map] at first
    exact ⟨nodes, read, tag, first, rfl⟩

end Fields

/-- What a tree holds is read in full, in whatever order it stands there. -/
theorem Tree.Holds.ofTree {tree : Tree} {entries : List (String × Tree)} (holds : tree.Holds entries)
    (construct : String) : ∃ fields, Fields.ofTree tree construct = .ok fields ∧ fields.size = entries.length ∧
      (∀ tag, fields.look tag = entries.lookup tag) ∧
      ∀ tags, fields.allow tags = .ok () ↔ ∀ entry ∈ entries, entry.1 ∈ tags := by
  obtain ⟨_, listed, lists, _⟩ := id holds
  obtain ⟨nodes, _, rfl⟩ := Tree.exists_nodes lists
  obtain ⟨keys, answers⟩ := holds.answers ⟨construct, nodes⟩ lists
  exact ⟨_, Fields.ofTree_ok.mpr ⟨lists, keys, rfl⟩, answers⟩

/-- Sets of fields are read exactly. A tree is taken if and only if it is a sequence of nodes with distinct
tags, and then each tag leads to the content of the one node that has it, whatever the order of the nodes.
A tree of the wrong shape is refused as such, for its first part that is no node; only a sequence of
nodes is refused for a tag, which is the first that comes again. -/
theorem Fields.read_exactly (tree : Tree) (construct : String) :
    ((∃ fields, Fields.ofTree tree construct = .ok fields) ↔
      ∃ entries, tree.Lists entries ∧ (entries.map Prod.fst).Nodup) ∧
    (∀ fields entries, Fields.ofTree tree construct = .ok fields → tree.Holds entries →
      fields.construct = construct ∧ fields.size = entries.length ∧
      (∀ tag content, fields.look tag = some content ↔ (tag, content) ∈ entries) ∧
      (∀ tag, fields.look tag = none ↔ tag ∉ entries.map Prod.fst) ∧
      ∀ allowed, fields.allow allowed = .ok () ↔ ∀ entry ∈ entries, entry.1 ∈ allowed) ∧
    (∀ cause, Fields.ofTree tree construct = .error (.malformed cause) ↔ tree.Misshapen cause) ∧
    ((∃ cause, tree.Misshapen cause) ↔ ¬ ∃ entries, tree.Lists entries) ∧
    (∀ named tag, Fields.ofTree tree construct = .error (.duplicateField named tag) ↔
      named = construct ∧ ∃ entries, tree.Lists entries ∧ FirstRepeat (entries.map Prod.fst) tag) ∧
    ∀ error, Fields.ofTree tree construct = .error error →
      (∃ cause, error = .malformed cause) ∨ ∃ tag, error = .duplicateField construct tag := by
  refine ⟨⟨?_, ?_⟩, ?_, fun cause => ?_, Tree.exists_misshapen, fun named tag => ?_, ?_⟩
  · rintro ⟨fields, read⟩
    obtain ⟨listed, distinct, _⟩ := Fields.ofTree_ok.mp read
    refine ⟨_, listed, ?_⟩
    rwa [List.map_map]
  · rintro ⟨entries, listed, distinct⟩
    have holds : tree.Holds entries := ⟨distinct, entries, listed, .refl entries⟩
    obtain ⟨fields, read, _⟩ := holds.ofTree construct
    exact ⟨fields, read⟩
  · intro fields entries read holds
    obtain ⟨listed, _, named⟩ := Fields.ofTree_ok.mp read
    obtain ⟨_, counted, look, allow⟩ := holds.answers fields listed
    refine ⟨named, counted, fun tag content => ?_, fun tag => ?_, allow⟩
    · rw [look, lookup_iff_mem holds.1]
    · rw [look, Option.eq_none_iff_forall_ne_some]
      simp only [ne_eq, lookup_iff_mem holds.1, List.mem_map, Prod.exists, exists_and_right, exists_eq_right, not_exists]
  · rw [Fields.ofTree_error]
    simp
  · rw [Fields.ofTree_error]
    constructor
    · rintro (⟨_, _, other⟩ | ⟨entries, again, listed, first, same⟩)
      · cases other
      · cases same
        exact ⟨rfl, entries, listed, first⟩
    · rintro ⟨rfl, entries, listed, first⟩
      exact .inr ⟨entries, tag, listed, first, rfl⟩
  · intro error refused
    obtain ⟨cause, _, same⟩ | ⟨_, tag, _, _, same⟩ := Fields.ofTree_error.mp refused
    · exact .inl ⟨cause, same⟩
    · exact .inr ⟨tag, same⟩

/-- The fields of a parameter, with the type before the name. -/
private def parameterFields : Tree :=
  .ofEntries [("type", .null), ("identifier", .text "x")]

theorem parameter_fields_read :
    ∃ fields, Fields.ofTree parameterFields "function_parameter" = .ok fields ∧ fields.size = 2 ∧
      fields.look "identifier" = some (.text "x") ∧ fields.look "accessor" = none ∧
      fields.allow ["identifier", "accessor", "type"] = .ok () := by
  have holds : parameterFields.Holds [("identifier", .text "x"), ("type", .null)] :=
    ⟨by decide, _, .entries _, .swap ..⟩
  obtain ⟨fields, read, _⟩ := holds.ofTree "function_parameter"
  obtain ⟨_, answers, _⟩ := Fields.read_exactly parameterFields "function_parameter"
  obtain ⟨_, counted, look, absent, allow⟩ := answers fields _ read holds
  exact ⟨fields, read, counted, (look _ _).mpr List.mem_cons_self, (absent _).mpr (by decide), (allow _).mpr (by decide)⟩

end Lowering
