import Mathlib
import Lowering.Proofs.ActionRuns
import Lowering.Tree.Fields

/-! Trees as the nodes that stand in them. A sequence is the list of its nodes with their tags, and
a set of fields is such a list up to its order. Readers see no more of a tree than that. -/

namespace Lowering

theorem mapM_ok {f : α → Except Error β} {items : List α} {values : List β} :
    items.mapM f = .ok values ↔ List.Forall₂ (fun item value => f item = .ok value) items values := by
  induction items generalizing values with
  | nil =>
    rw [List.mapM_nil, List.forall₂_nil_left_iff]
    simp [eq_comm]
  | cons item items ih =>
    simp only [List.mapM_cons, except_bind_ok, except_pure, Except.ok.injEq, List.forall₂_cons_left_iff, ih]
    constructor
    · rintro ⟨value, first, rest, later, rfl⟩
      exact ⟨value, rest, first, later, rfl⟩
    · rintro ⟨value, rest, first, later, rfl⟩
      exact ⟨value, first, rest, later, rfl⟩

theorem lookup_iff_mem {entries : List (String × α)} (distinct : (entries.map Prod.fst).Nodup) {name : String}
    {value : α} : entries.lookup name = some value ↔ (name, value) ∈ entries := by
  induction entries with
  | nil => simp
  | cons entry rest ih =>
    obtain ⟨key, held⟩ := entry
    simp only [List.map_cons, List.nodup_cons] at distinct
    by_cases here : name = key
    · subst here
      have apart : (name, value) ∉ rest := fun member => distinct.1 (List.mem_map.mpr ⟨_, member, rfl⟩)
      simp [apart, eq_comm]
    · simp [List.lookup_cons, beq_eq_false_iff_ne.mpr here, here, ih distinct.2]

theorem lookup_perm {one other : List (String × α)} (order : one.Perm other) (distinct : (other.map Prod.fst).Nodup)
    (name : String) : one.lookup name = other.lookup name := by
  have distinct' : (one.map Prod.fst).Nodup := (order.map Prod.fst).nodup_iff.mpr distinct
  apply Option.ext
  intro value
  rw [lookup_iff_mem distinct, lookup_iff_mem distinct', order.mem_iff]

namespace Tree

/-- The sequence of nodes with these tags and contents. -/
def ofEntries (entries : List (String × Tree)) : Tree :=
  .sequence (entries.map fun entry => .mapping [entry])

/-- The tree is the sequence of these nodes. An empty one may be written as null or as empty text. -/
inductive Lists : Tree → List (String × Tree) → Prop where
  | entries (entries : List (String × Tree)) : Lists (ofEntries entries) entries
  | null : Lists .null []
  | blank : Lists (.text "") []

/-- The tree is a set of these fields, which stand in some order. -/
def Holds (tree : Tree) (fields : List (String × Tree)) : Prop :=
  (fields.map Prod.fst).Nodup ∧ ∃ listed, tree.Lists listed ∧ listed.Perm fields

theorem holds_ofEntries {fields : List (String × Tree)} (distinct : (fields.map Prod.fst).Nodup) :
    (ofEntries fields).Holds fields :=
  ⟨distinct, fields, .entries fields, .refl _⟩

theorem Lists.unique {tree : Tree} {one other : List (String × Tree)} (listed : tree.Lists one)
    (again : tree.Lists other) : one = other := by
  have injective : Function.Injective fun entry : String × Tree => Tree.mapping [entry] := by
    intro first second same
    simpa using same
  cases listed with
  | entries =>
    generalize same : ofEntries one = tree at again
    cases again with
    | entries => exact List.map_injective_iff.mpr injective (by simpa [ofEntries] using same)
    | null => cases same
    | blank => cases same
  | null => cases again; rfl
  | blank => cases again; rfl

/-- What holds a node is no leaf. -/
theorem Lists.leaf?_eq_none {tree : Tree} {entry : String × Tree} {rest : List (String × Tree)}
    (listed : tree.Lists (entry :: rest)) : tree.leaf? = none := by
  generalize some : entry :: rest = entries at listed
  cases listed with
  | entries => rfl
  | null => cases some
  | blank => cases some

end Tree

namespace Node

variable {tree : Tree} {node : Node tree} {nodes : List (Node tree)}

def entry (node : Node tree) : String × Tree :=
  (node.tag, node.content)

theorem entry_eq {tag : String} (tagged : node.tag = tag) : node.entry = (tag, node.content) := by
  rw [entry, tagged]

theorem ofPart_ok {part : Tree} {held : sizeOf part ≤ sizeOf tree} :
    ofPart part held = .ok node ↔ part = .mapping [(node.tag, node.content)] := by
  constructor
  · intro read
    unfold ofPart at read
    split at read
    next => cases read; rfl
    next => cases read
    next => cases read
  · rintro rfl
    rfl

theorem checkTag_ok {tag : String} {nothing : Unit} : node.checkTag tag = .ok nothing ↔ node.tag = tag := by
  unfold checkTag
  split <;> simp [*]

theorem ofParts_ok {parts : List Tree} {held : ∀ part ∈ parts, sizeOf part ≤ sizeOf tree} :
    ofParts parts held = .ok nodes ↔ parts = (nodes.map entry).map fun entry => .mapping [entry] := by
  induction parts generalizing nodes with
  | nil =>
    cases nodes with
    | nil => exact ⟨fun _ => rfl, fun _ => rfl⟩
    | cons node rest => exact ⟨nofun, nofun⟩
  | cons part parts ih =>
    simp only [ofParts, except_bind_ok, except_pure, Except.ok.injEq, ofPart_ok, ih]
    constructor
    · rintro ⟨node, rfl, rest, rfl, rfl⟩
      rfl
    · intro same
      cases nodes with
      | nil => cases same
      | cons node rest =>
        obtain ⟨rfl, rfl⟩ := List.cons.inj same
        exact ⟨node, rfl, rest, rfl, rfl⟩

theorem sequenceOf_ok {part : Tree} {held : sizeOf part ≤ sizeOf tree} :
    sequenceOf part held = .ok nodes ↔ part.Lists (nodes.map entry) := by
  constructor
  · intro read
    unfold sequenceOf at read
    split at read
    next =>
      rw [ofParts_ok.mp read]
      exact .entries _
    next => cases read; exact .null
    next => cases read; exact .blank
    next => cases read
  · intro lists
    generalize listed : nodes.map entry = entries at lists
    cases lists with
    | entries =>
      subst listed
      exact ofParts_ok.mpr rfl
    | null => cases List.map_eq_nil_iff.mp listed; rfl
    | blank => cases List.map_eq_nil_iff.mp listed; rfl

theorem children_ok : node.children = .ok nodes ↔ node.content.Lists (nodes.map entry) :=
  sequenceOf_ok

theorem alone_ok : alone nodes = .ok node ↔ nodes = [node] := by
  match nodes with
  | [] => simp [alone]
  | [other] => simp [alone]
  | _ :: _ :: _ => simp [alone]

theorem text_ok {text : String} : node.text = .ok text ↔ node.content.leaf? = some text := by
  unfold Node.text
  split <;> simp [*]

/-- Wherever a part of a tree is a sequence, its entries are nodes found in the tree. -/
theorem exists_nodes {part : Tree} (held : sizeOf part ≤ sizeOf tree) {entries : List (String × Tree)}
    (listed : part.Lists entries) : ∃ nodes : List (Node tree), nodes.map entry = entries := by
  cases listed with
  | null => exact ⟨[], rfl⟩
  | blank => exact ⟨[], rfl⟩
  | entries =>
    have smaller : ∀ entry ∈ entries, sizeOf entry.2 < sizeOf tree := by
      intro entry member
      have inside := List.sizeOf_lt_of_mem (List.mem_map_of_mem (f := fun entry => Tree.mapping [entry]) member)
      obtain ⟨tag, content⟩ := entry
      simp [Tree.ofEntries] at held inside ⊢
      omega
    refine ⟨entries.attach.map fun one => ⟨one.1.1, one.1.2, smaller one.1 one.2⟩, ?_⟩
    calc
      _ = entries.attach.map Subtype.val := by simp [entry, Function.comp_def]
      _ = entries := List.attach_map_subtype_val entries

theorem exists_children {entries : List (String × Tree)} (listed : node.content.Lists entries) :
    ∃ nodes, node.children = .ok nodes ∧ nodes.map entry = entries := by
  obtain ⟨nodes, rfl⟩ := exists_nodes (Nat.le_of_lt node.smaller) listed
  exact ⟨nodes, children_ok.mpr listed, rfl⟩

theorem child_ok : node.child = .ok single ↔ node.content.Lists [single.entry] := by
  simp only [child, except_bind_ok, children_ok, alone_ok]
  constructor
  · rintro ⟨_, listed, rfl⟩
    exact listed
  · intro listed
    exact ⟨[single], listed, rfl⟩

theorem exists_child {tag : String} {content : Tree} (listed : node.content.Lists [(tag, content)]) :
    ∃ smaller, node.child = .ok ⟨tag, content, smaller⟩ := by
  obtain ⟨nodes, _, alone⟩ := exists_children listed
  obtain ⟨⟨_, _, smaller⟩, rfl, same⟩ := List.map_eq_singleton_iff.mp alone
  cases same
  exact ⟨smaller, child_ok.mpr listed⟩

end Node

namespace Tree

variable {tree : Tree} {nodes : List (Node tree)}

theorem nodes_ok : tree.nodes = .ok nodes ↔ tree.Lists (nodes.map Node.entry) :=
  Node.sequenceOf_ok

theorem exists_nodes {entries : List (String × Tree)} (listed : tree.Lists entries) :
    ∃ nodes, tree.nodes = .ok nodes ∧ nodes.map Node.entry = entries := by
  obtain ⟨nodes, rfl⟩ := Node.exists_nodes (Nat.le_refl _) listed
  exact ⟨nodes, nodes_ok.mpr listed, rfl⟩

theorem single_ok {node : Node tree} : tree.single = .ok node ↔ tree.Lists [node.entry] := by
  simp only [single, except_bind_ok, nodes_ok, Node.alone_ok]
  constructor
  · rintro ⟨_, listed, rfl⟩
    exact listed
  · intro listed
    exact ⟨[node], listed, rfl⟩

theorem exists_single {tag : String} {content : Tree} (listed : tree.Lists [(tag, content)]) :
    ∃ smaller, tree.single = .ok ⟨tag, content, smaller⟩ := by
  obtain ⟨nodes, _, alone⟩ := exists_nodes listed
  obtain ⟨⟨_, _, smaller⟩, rfl, same⟩ := List.map_eq_singleton_iff.mp alone
  cases same
  exact ⟨smaller, single_ok.mpr listed⟩

end Tree

namespace Fields

variable {tree : Tree} {fields : Fields tree} {nodes : List (Node tree)}

/-- The content of a field. -/
def look (fields : Fields tree) (tag : String) : Option Tree :=
  (fields.get? tag).map Node.content

theorem look_eq_lookup (fields : Fields tree) (tag : String) :
    fields.look tag = (fields.nodes.map Node.entry).lookup tag := by
  obtain ⟨construct, nodes⟩ := fields
  simp only [look, get?]
  induction nodes with
  | nil => rfl
  | cons node rest ih =>
    rw [List.map_cons, Node.entry, List.find?_cons, List.lookup_cons]
    by_cases here : node.tag = tag
    · simp [here]
    · have other : (tag == node.tag) = false := beq_eq_false_iff_ne.mpr fun same => here same.symm
      simp [here, other, ih]

theorem firstRepeat?_eq_none {seen tags : List String} :
    firstRepeat? seen tags = none ↔ tags.Nodup ∧ ∀ tag ∈ tags, tag ∉ seen := by
  induction tags generalizing seen with
  | nil => simp [firstRepeat?]
  | cons tag tags ih =>
    by_cases repeated : tag ∈ seen
    · simp [firstRepeat?, repeated]
    · simp only [firstRepeat?, repeated, if_false, ih, List.nodup_cons, List.mem_cons, not_or]
      grind

theorem ofNodes_ok {construct : String} :
    ofNodes construct nodes = .ok fields ↔ (nodes.map Node.tag).Nodup ∧ fields = ⟨construct, nodes⟩ := by
  unfold ofNodes
  split
  next repeated =>
    have : ¬ (nodes.map Node.tag).Nodup := by
      intro distinct
      have clean := firstRepeat?_eq_none.mpr ⟨distinct, fun _ _ => List.not_mem_nil⟩
      cases repeated.symm.trans clean
    simp [this]
  next clean =>
    have distinct := (firstRepeat?_eq_none.mp clean).1
    simp [distinct, eq_comm]

theorem allow_ok {allowed : List String} {nothing : Unit} :
    fields.allow allowed = .ok nothing ↔ ∀ node ∈ fields.nodes, node.tag ∈ allowed := by
  have same : (∀ tag ∈ fields.tags, tag ∈ allowed) ↔ ∀ node ∈ fields.nodes, node.tag ∈ allowed := by
    simp [tags]
  rw [← same]
  unfold allow
  split
  next tag found =>
    have refused : ¬ ∀ tag ∈ fields.tags, tag ∈ allowed := by
      intro all
      have odd := List.find?_some found
      simp [all tag (List.mem_of_find?_eq_some found)] at odd
    simp [refused]
  next none =>
    have all : ∀ tag ∈ fields.tags, tag ∈ allowed := by simpa using none
    simpa using all

theorem part_ok {tag : String} {node : Node tree} : fields.part tag = .ok node ↔ fields.get? tag = some node := by
  unfold part
  split <;> simp [*]

theorem look_of_part {tag : String} {node : Node tree} (read : fields.part tag = .ok node) :
    fields.look tag = some node.content := by
  rw [look, part_ok.mp read, Option.map_some]

theorem part_of_look {tag : String} {content : Tree} (found : fields.look tag = some content) :
    ∃ node, fields.part tag = .ok node ∧ node.content = content := by
  obtain ⟨node, got, rfl⟩ := Option.map_eq_some_iff.mp found
  exact ⟨node, part_ok.mpr got, rfl⟩

theorem leaf_ok {tag text : String} :
    fields.leaf tag = .ok text ↔ ∃ content, fields.look tag = some content ∧ content.leaf? = some text := by
  simp only [leaf, except_bind_ok, part_ok, look, Option.map_eq_some_iff]
  constructor
  · rintro ⟨node, found, read⟩
    split at read
    next text' leaf =>
      cases read
      exact ⟨node.content, ⟨node, found, rfl⟩, leaf⟩
    next => cases read
  · rintro ⟨_, ⟨node, found, rfl⟩, leaf⟩
    refine ⟨node, found, ?_⟩
    simp [leaf]

theorem contains_eq (fields : Fields tree) (tag : String) : fields.contains tag = (fields.look tag).isSome := by
  simp [contains, look]

/-- The fields of some tags, in the order of the tags. -/
def among (fields : Fields tree) (tags : List String) : List (String × Tree) :=
  tags.filterMap fun tag => (fields.look tag).map (tag, ·)

private theorem filterMap_tags_sublist (look : String → Option Tree) (tags : List String) :
    (tags.filterMap fun tag => ((look tag).map (tag, ·)).map Prod.fst).Sublist tags := by
  induction tags with
  | nil => exact .slnil
  | cons tag tags ih =>
    rw [List.filterMap_cons]
    cases look tag with
    | none => exact ih.cons tag
    | some content => exact ih.cons_cons tag

/-- Nodes with distinct tags of which all are allowed hold the fields of these tags and nothing else. -/
theorem holds_of_lists {part : Tree} {tags : List String} {nothing : Unit} (distinct : tags.Nodup)
    (listed : part.Lists (fields.nodes.map Node.entry)) (apart : (fields.nodes.map Node.tag).Nodup)
    (allowed : fields.allow tags = .ok nothing) : part.Holds (fields.among tags) := by
  have keys : ((fields.nodes.map Node.entry).map Prod.fst).Nodup := by
    simpa [Function.comp_def, Node.entry] using apart
  have distinct' : ((fields.among tags).map Prod.fst).Nodup := by
    apply List.Nodup.sublist _ distinct
    rw [among, List.map_filterMap]
    exact filterMap_tags_sublist _ tags
  refine ⟨distinct', fields.nodes.map Node.entry, listed, ?_⟩
  apply (List.perm_ext_iff_of_nodup (List.Nodup.of_map _ keys) (List.Nodup.of_map _ distinct')).mpr
  intro entry
  obtain ⟨tag, content⟩ := entry
  have known : (tag, content) ∈ fields.nodes.map Node.entry → tag ∈ tags := by
    intro member
    obtain ⟨one, inside, same⟩ := List.mem_map.mp member
    obtain ⟨rfl, rfl⟩ := Prod.mk.injEq .. |>.mp same
    exact allow_ok.mp allowed one inside
  have found : (tag, content) ∈ fields.among tags ↔ tag ∈ tags ∧ fields.look tag = some content := by
    simp only [among, List.mem_filterMap, Option.map_eq_some_iff, Prod.mk.injEq]
    constructor
    · rintro ⟨_, member, _, held, rfl, rfl⟩
      exact ⟨member, held⟩
    · intro held
      exact ⟨tag, held.1, content, held.2, rfl, rfl⟩
  rw [found, look_eq_lookup, lookup_iff_mem keys]
  exact ⟨fun member => ⟨known member, member⟩, And.right⟩

/-- What is read as a set with certain tags holds the fields of these tags and nothing else. -/
theorem holds_among {node : Node tree} {tags : List String} {nothing : Unit} (distinct : tags.Nodup)
    (read : node.fields = .ok fields) (allowed : fields.allow tags = .ok nothing) :
    node.content.Holds (fields.among tags) := by
  obtain ⟨nodes, listed, made⟩ := except_bind_ok.mp read
  obtain ⟨apart, rfl⟩ := ofNodes_ok.mp made
  exact holds_of_lists distinct (Node.children_ok.mp listed) apart allowed

end Fields

/-- The nodes of a set of fields, in whatever order they stand, answer as the set does. -/
theorem Tree.Holds.answers {tree part : Tree} {entries : List (String × Tree)} (holds : part.Holds entries)
    (fields : Fields tree) (lists : part.Lists (fields.nodes.map Node.entry)) :
    (fields.nodes.map Node.tag).Nodup ∧ fields.size = entries.length ∧
      (∀ tag, fields.look tag = entries.lookup tag) ∧
      ∀ tags, fields.allow tags = .ok () ↔ ∀ entry ∈ entries, entry.1 ∈ tags := by
  obtain ⟨distinct, listed, lists', order⟩ := holds
  cases lists.unique lists'
  refine ⟨?_, ?_, ?_, ?_⟩
  · have same := (order.map Prod.fst).nodup_iff.mpr distinct
    simpa [Function.comp_def, Node.entry] using same
  · simpa [Fields.size] using order.length_eq
  · intro tag
    rw [Fields.look_eq_lookup]
    exact lookup_perm order distinct tag
  · intro tags
    rw [Fields.allow_ok]
    constructor
    · intro allowed entry member
      obtain ⟨one, inside, rfl⟩ := List.mem_map.mp (order.mem_iff.mpr member)
      exact allowed one inside
    · exact fun allowed one member => allowed one.entry (order.mem_iff.mp (List.mem_map_of_mem member))

/-- A set of fields is read with all that it holds. -/
theorem Tree.Holds.read {tree : Tree} {node : Node tree} {entries : List (String × Tree)}
    (holds : node.content.Holds entries) : ∃ fields, node.fields = .ok fields ∧
      (∀ tag, fields.look tag = entries.lookup tag) ∧
      ∀ tags, (∀ entry ∈ entries, entry.1 ∈ tags) → fields.allow tags = .ok () := by
  obtain ⟨_, listed, lists, _⟩ := id holds
  obtain ⟨nodes, children, rfl⟩ := Node.exists_children lists
  obtain ⟨keys, _, look, allow⟩ := holds.answers ⟨node.tag, nodes⟩ lists
  have read : node.fields = .ok ⟨node.tag, nodes⟩ :=
    except_bind_ok.mpr ⟨nodes, children, Fields.ofNodes_ok.mpr ⟨keys, rfl⟩⟩
  exact ⟨_, read, look, fun tags => (allow tags).mpr⟩

end Lowering
