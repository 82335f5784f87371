import Lowering.Proofs.ExprSoundness

/-! Expressions are read by their grammar. The readers accept what the rules make an expression, with
the value that the rules give it, and refuse everything else. -/

namespace Lowering
namespace Expr

open Lowering.Tree (ifGiven)

variable {tree : Tree}

/-- How what stands at a level is read: the node of a base expression and the nodes of an expression by
themselves, those of an operand on the way through an expression. -/
def Accepted : Level → List (String × Tree) → Expr → Prop
  | .base, entries, expr => ∀ tree : Tree, tree.Lists entries → ofBase tree = .ok expr
  | .term, entries, expr => ∀ (tree : Tree) (nodes : List (Node tree)), nodes.map Node.entry = entries →
      termOfNodes nodes = .ok expr
  | .operand, entries, expr => ∀ (tree : Tree) (nodes : List (Node tree)), nodes.map Node.entry = entries →
      ∀ before unaries, nodes.foldlM Partial.take (.awaiting before unaries) = .ok (.supply before unaries expr)
  | .expression, entries, expr => ∀ tree : Tree, tree.Lists entries → ofTree tree = .ok expr

section Completeness

variable {node : Node tree} {nodes : List (Node tree)} {expr base : Expr} {content : Tree}

theorem Partial.finish_ended (first : Expr) (rest : List (BinaryOp × Expr)) :
    (ended first rest).finish = .ok (joined first rest) := by
  cases rest <;> rfl

theorem literalOfNode_literal {literal : Literal} (written : Literal.Written node.content literal) :
    literalOfNode node = .ok (.literal literal) := by
  unfold literalOfNode
  rw [Literal.ofTree_ok.mpr written]
  split
  next inner child =>
    have other : inner.tag ≠ "collection_literal" := by
      intro collection
      have alone := Node.child_ok.mp child
      rw [Node.entry_eq collection] at alone
      exact written.not_collection alone
    rw [if_neg other]
    rfl
  next => rfl

theorem literalOfNode_collection {inner : Tree} {entries : List (String × Tree)} {items : List Expr}
    (alone : node.content.Lists [("collection_literal", inner)]) (listed : inner.Lists entries)
    (each : ∀ nodes : List (Node tree), nodes.map Node.entry = entries → nodes.mapM itemOfNode = .ok items) :
    literalOfNode node = .ok (.collection items) := by
  obtain ⟨smaller, child⟩ := Node.exists_child alone
  have inside : (⟨"collection_literal", inner, smaller⟩ : Node tree).content.Lists entries := listed
  obtain ⟨nodes, children, same⟩ := Node.exists_children inside
  unfold literalOfNode
  rw [child]
  exact except_bind_ok.mpr ⟨nodes, children, except_bind_ok.mpr ⟨items, each nodes same, rfl⟩⟩

/-- What is read from the field that lists arguments, or from its absence. -/
def argumentsOfField : Option Tree → Except Error (List (Accessor × Expr))
  | some list => argumentsOfTree list
  | none => .ok []

theorem parameters_read {fields : Fields tree} {tag : String} {arguments : List (Accessor × Expr)}
    {next : List (Accessor × Expr) → Except Error α} (read : argumentsOfField (fields.look tag) = .ok arguments) :
    (match fields.get? tag with
      | some list => argumentsOfTree list.content >>= next
      | none => pure [] >>= next) = next arguments := by
  unfold Fields.look at read
  cases found : fields.get? tag with
  | none =>
    rw [found] at read
    cases read
    rfl
  | some list =>
    rw [found] at read
    exact congrArg (· >>= next) read

theorem baseOfNode_call {named : Tree} {name : String} {parameters : Option Tree} {arguments : List (Accessor × Expr)}
    (tagged : node.tag = "function_call")
    (held : node.content.Holds (("identifier", named) :: ifGiven "function_call_parameters" parameters))
    (spelled : named.leaf? = some name) (each : argumentsOfField parameters = .ok arguments) :
    baseOfNode node = .ok (.call name arguments) := by
  obtain ⟨fields, listed, look, allowed⟩ := held.read
  have given : fields.look "function_call_parameters" = parameters := by
    rw [look]
    cases parameters <;> rfl
  have known : fields.allow ["identifier", "function_call_parameters"] = .ok () := by
    apply allowed
    simp +contextual
  have name_read : fields.leaf "identifier" = .ok name := Fields.leaf_ok.mpr ⟨named, look _, spelled⟩
  unfold baseOfNode
  rw [tagged]
  refine except_bind_ok.mpr ⟨fields, listed, except_bind_ok.mpr ⟨_, known, ?_⟩⟩
  refine (parameters_read (given ▸ each)).trans ?_
  exact except_bind_ok.mpr ⟨name, name_read, rfl⟩

theorem apply_field {named : Tree} {name : String} (tagged : node.tag = "field_access")
    (held : node.content.Holds [("identifier", named)]) (spelled : named.leaf? = some name) :
    apply base node = .ok (.field base name) := by
  obtain ⟨fields, listed, look, allowed⟩ := held.read
  have known : fields.allow ["identifier"] = .ok () := allowed _ (by simp)
  have name_read : fields.leaf "identifier" = .ok name := Fields.leaf_ok.mpr ⟨named, look _, spelled⟩
  unfold apply
  rw [tagged]
  exact except_bind_ok.mpr ⟨fields, listed, except_bind_ok.mpr ⟨_, known, except_bind_ok.mpr ⟨name, name_read, rfl⟩⟩⟩

theorem apply_method {named : Tree} {called : Method} {symbol parameters : Option Tree} {arguments : List Expr}
    (tagged : node.tag = "method_call")
    (held : node.content.Holds (("identifier", named) :: ifGiven "mutate_method_symbol" symbol ++
      ifGiven "function_call_parameters" parameters))
    (spelled : named.leaf? = some called.name)
    (each : argumentsOfField parameters = .ok (arguments.map (Accessor.look, ·))) :
    apply base node = .ok (.method base called symbol.isSome arguments) := by
  obtain ⟨fields, listed, look, allowed⟩ := held.read
  have given : fields.look "function_call_parameters" = parameters := by
    rw [look]
    cases symbol <;> cases parameters <;> rfl
  have marked : fields.contains "mutate_method_symbol" = symbol.isSome := by
    rw [Fields.contains_eq, look]
    cases symbol <;> cases parameters <;> rfl
  have known : fields.allow ["identifier", "mutate_method_symbol", "function_call_parameters"] = .ok () := by
    apply allowed
    simp +contextual [or_imp]
  have name_read : fields.leaf "identifier" = .ok called.name := Fields.leaf_ok.mpr ⟨named, look _, spelled⟩
  unfold apply
  rw [tagged]
  refine except_bind_ok.mpr ⟨fields, listed, except_bind_ok.mpr ⟨_, known, except_bind_ok.mpr ⟨_, name_read, ?_⟩⟩⟩
  refine except_bind_ok.mpr ⟨called, require_ok.mpr (Method.ofName?_name called), ?_⟩
  refine (parameters_read (given ▸ each)).trans ?_
  refine except_bind_ok.mpr ⟨arguments, Method.plainArguments_ok.mpr rfl, ?_⟩
  rw [marked]
  rfl

theorem apply_index {inner : Tree} {position : Expr} (tagged : node.tag = "index_call")
    (held : node.content.Holds [("expression", inner)]) (read : ofTree inner = .ok position) :
    apply base node = .ok (.index base position) := by
  obtain ⟨fields, listed, look, allowed⟩ := held.read
  have known : fields.allow ["expression"] = .ok () := allowed _ (by simp)
  obtain ⟨part, present, rfl⟩ := Fields.part_of_look (look "expression")
  unfold apply
  rw [tagged]
  refine except_bind_ok.mpr ⟨fields, listed, except_bind_ok.mpr ⟨_, known, except_bind_ok.mpr ⟨part, present, ?_⟩⟩⟩
  exact except_bind_ok.mpr ⟨position, read, rfl⟩

theorem argumentOfNode_accepts {given : Option Tree} {accessor : Accessor} {inner : Tree} {value : Expr}
    (tagged : node.tag = "function_call_parameter")
    (held : node.content.Holds (ifGiven "accessor" given ++ [("expression", inner)]))
    (written : Accessor.Written given accessor) (read : ofTree inner = .ok value) :
    argumentOfNode node = .ok (accessor, value) := by
  obtain ⟨fields, listed, look, allowed⟩ := held.read
  have named : fields.look "accessor" = given := by
    rw [look]
    cases given <;> rfl
  have present : fields.look "expression" = some inner := by
    rw [look]
    cases given <;> rfl
  have known : fields.allow ["accessor", "expression"] = .ok () := by
    apply allowed
    simp +contextual [or_imp]
  obtain ⟨token, given_read, resolved⟩ := except_bind_ok.mp (Accessor.ofField_ok.mpr (named ▸ written))
  obtain ⟨part, part_read, rfl⟩ := Fields.part_of_look present
  unfold argumentOfNode
  refine except_bind_ok.mpr ⟨(), Node.checkTag_ok.mpr tagged, except_bind_ok.mpr ⟨fields, listed, ?_⟩⟩
  refine except_bind_ok.mpr ⟨_, known, except_bind_ok.mpr ⟨token, given_read, except_bind_ok.mpr ⟨_, resolved, ?_⟩⟩⟩
  exact except_bind_ok.mpr ⟨part, part_read, except_bind_ok.mpr ⟨value, read, rfl⟩⟩

theorem Accepted.single {tag : String} (read : ∀ (tree : Tree) (smaller : sizeOf content < sizeOf tree),
    baseOfNode (⟨tag, content, smaller⟩ : Node tree) = .ok expr) : Accepted .base [(tag, content)] expr := by
  intro tree alone
  obtain ⟨smaller, alone⟩ := Tree.exists_single alone
  exact ofBase_ok.mpr ⟨_, alone, read tree smaller⟩

theorem Accepted.snoc {entries : List (String × Tree)} {tag : String} (begun : Accepted .term entries base)
    (applied : ∀ (tree : Tree) (smaller : sizeOf content < sizeOf tree),
      apply base (⟨tag, content, smaller⟩ : Node tree) = .ok expr) : Accepted .term (entries ++ [(tag, content)]) expr := by
  intro tree nodes same
  obtain ⟨front, back, rfl, rfl, last⟩ := List.map_eq_append_iff.mp same
  obtain ⟨⟨_, _, smaller⟩, rfl, known⟩ := List.map_eq_singleton_iff.mp last
  cases known
  have read := begun tree front rfl
  have some : front ≠ [] := by
    rintro rfl
    cases read
  exact (termOfNodes_snoc some _).mpr ⟨base, read, applied tree smaller⟩

/-- How nodes are read that are read each by itself. -/
def AllAccepted {α : Type} (reader : {tree : Tree} → Node tree → Except Error α) (entries : List (String × Tree))
    (values : List α) : Prop :=
  ∀ (tree : Tree) (nodes : List (Node tree)), nodes.map Node.entry = entries → nodes.mapM reader = .ok values

theorem AllAccepted.nil {α : Type} {reader : {tree : Tree} → Node tree → Except Error α} : AllAccepted reader [] [] := by
  intro tree nodes same
  cases List.map_eq_nil_iff.mp same
  rfl

theorem AllAccepted.cons {α : Type} {reader : {tree : Tree} → Node tree → Except Error α} {tag : String} {value : α}
    {values : List α} {entries : List (String × Tree)} (first : ∀ (tree : Tree) (smaller : sizeOf content < sizeOf tree),
      reader (⟨tag, content, smaller⟩ : Node tree) = .ok value) (rest : AllAccepted reader entries values) :
    AllAccepted reader ((tag, content) :: entries) (value :: values) := by
  intro tree nodes same
  obtain ⟨⟨_, _, smaller⟩, others, rfl, known, later⟩ := List.map_eq_cons_iff.mp same
  cases known
  exact mapM_ok.mpr (.cons (first tree smaller) (mapM_ok.mp (rest tree others later)))

theorem Derives.accepted {level : Level} {entries : List (String × Tree)} (derives : Derives level entries expr) :
    Accepted level entries expr := by
  induction derives using Derives.rec
      (motive_2 := fun entries rest _ => ∀ (tree : Tree) (nodes : List (Node tree)), nodes.map Node.entry = entries →
        ∀ first done, nodes.foldlM Partial.take (.ended first done) = .ok (.ended first (done ++ rest)))
      (motive_3 := fun parameters arguments _ => argumentsOfField parameters = .ok arguments)
      (motive_4 := fun entries arguments _ => AllAccepted argumentOfNode entries arguments)
      (motive_5 := fun entries items _ => AllAccepted itemOfNode entries items) with
  | literal written => exact .single fun _ _ => literalOfNode_literal written
  | collection inside listed _ each => exact .single fun tree _ => literalOfNode_collection inside listed (each tree)
  | identifier named => exact .single fun _ _ => except_bind_ok.mpr ⟨_, Node.text_ok.mpr named, rfl⟩
  | call held spelled _ each => exact .single fun _ _ => baseOfNode_call rfl held spelled each
  | paren listed _ ih => exact .single fun _ _ => except_bind_ok.mpr ⟨_, ih _ listed, rfl⟩
  | ofBase listed _ ih =>
    intro tree nodes same
    obtain ⟨⟨_, _, _⟩, rfl, same⟩ := List.map_eq_singleton_iff.mp same
    cases same
    exact except_bind_ok.mpr ⟨(), Node.checkTag_ok.mpr rfl, except_bind_ok.mpr ⟨_, ih _ listed, rfl⟩⟩
  | field _ held spelled ih => exact ih.snoc fun _ _ => apply_field rfl held spelled
  | method _ held spelled _ ih each => exact ih.snoc fun _ _ => apply_method rfl held spelled each
  | index _ held listed _ ih within => exact ih.snoc fun _ _ => apply_index rfl held (within _ listed)
  | ofTerm listed _ ih =>
    intro tree nodes same before unaries
    obtain ⟨⟨_, _, _⟩, rfl, same⟩ := List.map_eq_singleton_iff.mp same
    cases same
    obtain ⟨nodes, listed, same⟩ := Tree.exists_nodes listed
    have read := ofTerm_ok.mpr ⟨nodes, listed, ih _ nodes same⟩
    rw [List.foldlM_cons, except_bind_ok]
    exact ⟨_, except_bind_ok.mpr ⟨_, read, rfl⟩, rfl⟩
  | unary spelled _ ih =>
    intro tree nodes same before unaries
    obtain ⟨⟨_, _, _⟩, behind, rfl, same, inner⟩ := List.map_eq_cons_iff.mp same
    cases same
    rw [List.foldlM_cons, except_bind_ok]
    refine ⟨_, except_bind_ok.mpr ⟨_, Node.text_ok.mpr spelled, ?_⟩, ih tree behind inner before (_ :: unaries)⟩
    exact except_bind_ok.mpr ⟨_, require_ok.mpr (UnaryOp.ofToken?_token _), rfl⟩
  | @chain _ first _ _ _ _ begins continues =>
    intro tree listed
    obtain ⟨_, listed, same⟩ := Tree.exists_nodes listed
    obtain ⟨front, back, rfl, begun, later⟩ := List.map_eq_append_iff.mp same
    have started := begins tree front begun none []
    have ran := continues tree back later first []
    refine ofTree_ok.mpr ⟨_, listed, ?_, except_bind_ok.mpr ⟨_, ?_, Partial.finish_ended _ _⟩⟩
    · intro empty
      cases (List.append_eq_nil_iff.mp empty).1
      cases started
    · rw [List.foldlM_append]
      exact except_bind_ok.mpr ⟨_, started, ran⟩
  | done tree nodes same first done =>
    cases List.map_eq_nil_iff.mp same
    rw [List.append_nil]
    rfl
  | @next _ operator _ _ _ _ spelled _ _ behind continues tree nodes same first done =>
    obtain ⟨front, back, rfl, begun, later⟩ := List.map_eq_append_iff.mp same
    obtain ⟨⟨_, _, _⟩, inner, rfl, head, inside⟩ := List.map_eq_cons_iff.mp begun
    cases head
    rw [List.cons_append, List.foldlM_cons, except_bind_ok]
    refine ⟨.awaiting (some (first, done, operator)) [], except_bind_ok.mpr ⟨_, Node.text_ok.mpr spelled, ?_⟩, ?_⟩
    · exact except_bind_ok.mpr ⟨_, require_ok.mpr (BinaryOp.ofToken?_token operator), rfl⟩
    · rw [List.foldlM_append]
      refine except_bind_ok.mpr ⟨_, behind tree inner inside _ [], (continues tree back later _ _).trans ?_⟩
      rw [List.append_assoc]
      rfl
  | absent => rfl
  | listed listed _ each =>
    obtain ⟨nodes, listed, same⟩ := Tree.exists_nodes listed
    exact argumentsOfTree_ok.mpr ⟨nodes, listed, each _ nodes same⟩
  | noArgument => exact .nil
  | argument held written listed _ _ ih each =>
    exact .cons (fun _ _ => argumentOfNode_accepts rfl held written (ih _ listed)) each
  | noItem => exact .nil
  | item listed _ _ ih each =>
    exact .cons (fun _ _ => except_bind_ok.mpr ⟨(), Node.checkTag_ok.mpr rfl, ih _ listed⟩) each

end Completeness

theorem ofTree_iff {expr : Expr} : ofTree tree = .ok expr ↔ Reads .expression tree expr := by
  constructor
  · exact (sound tree).expression
  · intro ⟨entries, listed, derives⟩
    exact derives.accepted tree listed

theorem ofTerm_iff {expr : Expr} : ofTerm tree = .ok expr ↔ Reads .term tree expr := by
  constructor
  · exact (sound tree).term
  · intro ⟨entries, listed, derives⟩
    obtain ⟨nodes, read, same⟩ := Tree.exists_nodes listed
    exact ofTerm_ok.mpr ⟨nodes, read, derives.accepted tree nodes same⟩

theorem ofBase_iff {expr : Expr} : ofBase tree = .ok expr ↔ Reads .base tree expr := by
  constructor
  · exact (sound tree).base
  · intro ⟨entries, listed, derives⟩
    exact derives.accepted tree listed

end Expr
end Lowering
