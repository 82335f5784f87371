import Lowering.Proofs.TreeEntries

/-! Spellings of a tree. Writers of trees differ in what makes no difference to a reader: the order
of fields, how an empty list is written, whether a number stands in quotes, and what is put where
nothing is looked at. The tag above a tree says which of these it may differ in. -/

namespace Lowering

/-- What matters of the content of a node. -/
inductive Content where
  /-- Its text, or its nodes in their order. -/
  | ordered
  /-- Its fields in any order. -/
  | fields
  /-- All of it, as it is carried over. -/
  | kept
  /-- Only that it holds no nodes. -/
  | keyword
  /-- Nothing. -/
  | ignored
deriving DecidableEq

def Content.under : String → Content
  | "type" => kept
  | "mutate_method_symbol" => ignored
  | "break_statement" | "continue_statement" => keyword
  | "field_access" | "method_call" | "index_call" | "function_call" | "function_call_parameter"
  | "var_statement" | "const_statement" | "set_statement" | "run_statement" | "return_statement"
  | "while_loop" | "if_branch" | "elseif_branch" | "else_branch" => fields
  | _ => ordered

/-- A list under one of these tags may be left out where it is empty. -/
def omittable : List String :=
  ["function_call_parameters", "statements"]

namespace Tree

mutual

/-- The tree is another spelling of a standard one, as the content of a node with this tag. -/
inductive Spells : String → Tree → Tree → Prop where
  | text {tag text tree} (ordered : Content.under tag = .ordered) (same : tree.leaf? = some text) :
    Spells tag (.text text) tree
  | sequence {tag standard tree entries} (ordered : Content.under tag = .ordered) (listed : tree.Lists entries)
    (each : EntriesSpell tag standard entries) : Spells tag (.ofEntries standard) tree
  | fields {tag standard tree entries} (set : Content.under tag = .fields) (held : tree.Holds entries)
    (each : EntriesSpell tag standard entries) : Spells tag (.ofEntries standard) tree
  | kept {tag tree} (same : Content.under tag = .kept) : Spells tag tree tree
  | keyword {tag standard tree} (bare : Content.under tag = .keyword)
    (idle : tree.leaf?.isSome = true ∨ tree.Lists []) : Spells tag standard tree
  | ignored {tag standard tree} (unread : Content.under tag = .ignored) : Spells tag standard tree

/-- The nodes are another spelling of standard ones within a node with this tag. A plain target of
an assignment may be written like any other place. -/
inductive EntriesSpell : String → List (String × Tree) → List (String × Tree) → Prop where
  | nil {parent} : EntriesSpell parent [] []
  | cons {parent tag standard tree others entries} (first : Spells tag standard tree)
    (rest : EntriesSpell parent others entries) :
    EntriesSpell parent ((tag, standard) :: others) ((tag, tree) :: entries)
  | omitted {parent tag others entries} (optional : tag ∈ omittable) (rest : EntriesSpell parent others entries) :
    EntriesSpell parent ((tag, .ofEntries []) :: others) entries
  | target {name tree base identifier others entries} (alone : tree.Lists [("base_expression", base)])
    (plain : base.Lists [("identifier", identifier)]) (same : identifier.leaf? = some name)
    (rest : EntriesSpell "set_statement" others entries) :
    EntriesSpell "set_statement" (("identifier", .text name) :: others) (("place_term", tree) :: entries)

end

variable {tag parent : String} {standard others entries rest : List (String × Tree)} {tree content : Tree}

theorem ofEntries_injective : Function.Injective ofEntries := by
  intro one other same
  exact Lists.unique (.entries one) (same ▸ .entries other)

theorem spells_text (ordered : Content.under tag = .ordered) {text : String} :
    Spells tag (.text text) tree ↔ tree.leaf? = some text := by
  constructor
  · intro spells
    cases spells with
    | text _ same => exact same
    | kept odd | keyword odd _ | ignored odd => cases ordered.symm.trans odd
  · exact .text ordered

theorem spells_sequence (ordered : Content.under tag = .ordered) :
    Spells tag (.ofEntries standard) tree ↔ ∃ entries, tree.Lists entries ∧ EntriesSpell tag standard entries := by
  constructor
  · intro spells
    generalize same : ofEntries standard = written at spells
    cases spells with
    | text => cases same
    | sequence _ listed each =>
      cases ofEntries_injective same
      exact ⟨_, listed, each⟩
    | fields odd _ _ | kept odd | keyword odd _ | ignored odd => cases ordered.symm.trans odd
  · intro ⟨entries, listed, each⟩
    exact .sequence ordered listed each

theorem spells_fields (set : Content.under tag = .fields) :
    Spells tag (.ofEntries standard) tree ↔ ∃ entries, tree.Holds entries ∧ EntriesSpell tag standard entries := by
  constructor
  · intro spells
    generalize same : ofEntries standard = written at spells
    cases spells with
    | text => cases same
    | fields _ held each =>
      cases ofEntries_injective same
      exact ⟨_, held, each⟩
    | sequence odd _ _ | kept odd | keyword odd _ | ignored odd => cases set.symm.trans odd
  · intro ⟨entries, held, each⟩
    exact .fields set held each

theorem spells_kept (kept : Content.under tag = .kept) {standard : Tree} : Spells tag standard tree ↔ standard = tree := by
  constructor
  · intro spells
    cases spells with
    | kept _ => rfl
    | text odd _ | sequence odd _ _ | fields odd _ _ | keyword odd _ | ignored odd => cases kept.symm.trans odd
  · rintro rfl
    exact .kept kept

theorem spells_keyword (bare : Content.under tag = .keyword) {standard : Tree} :
    Spells tag standard tree ↔ tree.leaf?.isSome = true ∨ tree.Lists [] := by
  constructor
  · intro spells
    cases spells with
    | keyword _ idle => exact idle
    | text odd _ | sequence odd _ _ | fields odd _ _ | kept odd | ignored odd => cases bare.symm.trans odd
  · exact .keyword bare

theorem entriesSpell_nil : EntriesSpell parent [] entries ↔ entries = [] := by
  constructor
  · rintro ⟨⟩
    rfl
  · rintro rfl
    exact .nil

theorem entriesSpell_cons (present : tag ∉ omittable) (ordinary : parent ≠ "set_statement" ∨ tag ≠ "identifier")
    {standard : Tree} : EntriesSpell parent ((tag, standard) :: others) entries ↔
      ∃ content rest, entries = (tag, content) :: rest ∧ Spells tag standard content ∧
        EntriesSpell parent others rest := by
  constructor
  · intro spells
    cases spells with
    | cons first rest => exact ⟨_, _, rfl, first, rest⟩
    | omitted optional _ => exact absurd optional present
    | target => simp at ordinary
  · rintro ⟨content, rest, rfl, first, later⟩
    exact .cons first later

theorem entriesSpell_optional (optional : tag ∈ omittable) : EntriesSpell parent ((tag, .ofEntries standard) :: others) entries ↔
      (∃ content rest, entries = (tag, content) :: rest ∧ Spells tag (.ofEntries standard) content ∧
        EntriesSpell parent others rest) ∨ standard = [] ∧ EntriesSpell parent others entries := by
  constructor
  · intro spells
    generalize same : ofEntries standard = written at spells
    cases spells with
    | cons first rest => exact .inl ⟨_, _, rfl, first, rest⟩
    | omitted _ rest => exact .inr ⟨ofEntries_injective same, rest⟩
    | target => cases same
  · rintro (⟨content, rest, rfl, first, later⟩ | ⟨rfl, later⟩)
    · exact .cons first later
    · exact .omitted optional later

section Nodes

variable {other : Tree} {node : Node other} {nodes : List (Node other)}

/-- A node that has to be there comes first among the nodes. -/
theorem entriesSpell_node (present : tag ∉ omittable) (ordinary : parent ≠ "set_statement" ∨ tag ≠ "identifier")
    {standard : Tree} : EntriesSpell parent ((tag, standard) :: others) ((node :: nodes).map Node.entry) ↔
      node.tag = tag ∧ Spells tag standard node.content ∧ EntriesSpell parent others (nodes.map Node.entry) := by
  rw [entriesSpell_cons present ordinary]
  constructor
  · rintro ⟨content, rest, same, first, later⟩
    obtain ⟨head, rfl⟩ := List.cons.inj same
    obtain ⟨tagged, rfl⟩ := Prod.mk.injEq .. |>.mp head
    exact ⟨tagged, first, later⟩
  · rintro ⟨rfl, first, later⟩
    exact ⟨_, _, rfl, first, later⟩

theorem not_entriesSpell_nil (present : tag ∉ omittable) (ordinary : parent ≠ "set_statement" ∨ tag ≠ "identifier")
    {standard : Tree} : ¬ EntriesSpell parent ((tag, standard) :: others) [] := by
  intro spells
  obtain ⟨_, _, odd, _⟩ := (entriesSpell_cons present ordinary).mp spells
  cases odd

/-- Nodes that are read each by itself spell the entries of what they are read as. -/
theorem entriesSpell_each {α : Type} {reads : Node other → α → Prop} {formed : α → Prop} {standard : α → Tree}
    (present : tag ∉ omittable) (ordinary : parent ≠ "set_statement" ∨ tag ≠ "identifier")
    (one : ∀ node value, reads node value ↔ node.tag = tag ∧ formed value ∧ Spells tag (standard value) node.content)
    {values : List α} : List.Forall₂ reads nodes values ↔ (∀ value ∈ values, formed value) ∧
      EntriesSpell parent (values.map fun value => (tag, standard value)) (nodes.map Node.entry) := by
  induction nodes generalizing values with
  | nil =>
    cases values with
    | nil => simp [entriesSpell_nil]
    | cons value values => simp [not_entriesSpell_nil present ordinary]
  | cons node nodes ih =>
    cases values with
    | nil => simp [entriesSpell_nil]
    | cons value values =>
      rw [List.forall₂_cons, one, ih, List.forall_mem_cons, List.map_cons, entriesSpell_node present ordinary]
      tauto

end Nodes

theorem EntriesSpell.append (first : EntriesSpell parent standard entries) (last : EntriesSpell parent others rest) :
    EntriesSpell parent (standard ++ others) (entries ++ rest) := by
  induction standard generalizing entries with
  | nil =>
    cases entriesSpell_nil.mp first
    exact last
  | cons entry standard ih =>
    cases first with
    | cons first later => exact .cons first (ih later)
    | omitted optional later => exact .omitted optional (ih later)
    | target alone plain same later => exact .target alone plain same (ih later)

theorem EntriesSpell.split (spells : EntriesSpell parent (standard ++ others) entries) :
    ∃ before after, entries = before ++ after ∧ EntriesSpell parent standard before ∧ EntriesSpell parent others after := by
  induction standard generalizing entries with
  | nil => exact ⟨[], entries, rfl, .nil, spells⟩
  | cons entry standard ih =>
    cases spells with
    | cons first later =>
      obtain ⟨before, after, rfl, begun, ended⟩ := ih later
      exact ⟨_ :: before, after, rfl, .cons first begun, ended⟩
    | omitted optional later =>
      obtain ⟨before, after, rfl, begun, ended⟩ := ih later
      exact ⟨before, after, rfl, .omitted optional begun, ended⟩
    | target alone plain same later =>
      obtain ⟨before, after, rfl, begun, ended⟩ := ih later
      exact ⟨_ :: before, after, rfl, .target alone plain same begun, ended⟩

/-- What stands around nodes only matters to the target of an assignment. -/
theorem EntriesSpell.elsewhere (spells : EntriesSpell parent standard entries) (ordinary : parent ≠ "set_statement")
    (other : String) : EntriesSpell other standard entries := by
  induction standard generalizing entries with
  | nil =>
    cases entriesSpell_nil.mp spells
    exact .nil
  | cons entry standard ih =>
    cases spells with
    | cons first later => exact .cons first (ih later)
    | omitted optional later => exact .omitted optional (ih later)
    | target => exact absurd rfl ordinary

/-- A node that holds nodes in their order is not left out, unless its tag allows it. -/
theorem EntriesSpell.of_sequence (spells : EntriesSpell parent ((tag, .ofEntries standard) :: others) entries)
    (present : tag ∉ omittable) (ordered : Content.under tag = .ordered) : ∃ content inner rest,
      entries = (tag, content) :: rest ∧ content.Lists inner ∧ EntriesSpell tag standard inner ∧
        EntriesSpell parent others rest := by
  generalize same : ofEntries standard = written at spells
  cases spells with
  | cons first rest =>
    subst same
    obtain ⟨inner, listed, each⟩ := (spells_sequence ordered).mp first
    exact ⟨_, inner, _, rfl, listed, each, rest⟩
  | omitted optional _ => exact absurd optional present
  | target => cases same

theorem EntriesSpell.of_fields (spells : EntriesSpell parent ((tag, .ofEntries standard) :: others) entries)
    (present : tag ∉ omittable) (set : Content.under tag = .fields) : ∃ content inner rest,
      entries = (tag, content) :: rest ∧ content.Holds inner ∧ EntriesSpell tag standard inner ∧
        EntriesSpell parent others rest := by
  generalize same : ofEntries standard = written at spells
  cases spells with
  | cons first rest =>
    subst same
    obtain ⟨inner, held, each⟩ := (spells_fields set).mp first
    exact ⟨_, inner, _, rfl, held, each, rest⟩
  | omitted optional _ => exact absurd optional present
  | target => cases same

theorem EntriesSpell.of_text {text : String} (spells : EntriesSpell parent ((tag, .text text) :: others) entries)
    (ordered : Content.under tag = .ordered) (ordinary : parent ≠ "set_statement" ∨ tag ≠ "identifier") :
    ∃ content rest, entries = (tag, content) :: rest ∧ content.leaf? = some text ∧ EntriesSpell parent others rest := by
  generalize same : Tree.text text = written at spells
  cases spells with
  | cons first rest =>
    subst same
    exact ⟨_, _, rfl, (spells_text ordered).mp first, rest⟩
  | omitted => cases same
  | target => simp at ordinary

end Tree
end Lowering
