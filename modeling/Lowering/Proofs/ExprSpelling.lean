import Lowering.Proofs.ExprReading

/-! What is read as an expression is a spelling of its nodes. The grammar and the standard way of writing
an expression allow the same trees. -/

namespace Lowering
open Lowering.Tree (ifGiven Spells EntriesSpell)

theorem Literal.Written.spelled {content : Tree} {value : Literal} (written : Written content value) :
    value.WellFormed ∧ Spells "literal" value.tree content := by
  cases written with
  | verbatim held visible => exact ⟨fun _ => visible, .text rfl held⟩
  | @kinded tag inner kind text listed known held =>
    have tagged := LiteralKind.ofTag?_eq_some.mp known
    have ordered : Content.under tag = .ordered := by
      cases kind <;> cases tagged <;> rfl
    constructor
    · rintro rfl
      cases tagged
    · rw [Literal.tree, tagged]
      exact .sequence rfl listed (.cons (.text ordered held) .nil)

theorem Literal.Written.of_spells {content : Tree} {value : Literal} (formed : value.WellFormed)
    (spells : Spells "literal" value.tree content) : Written content value := by
  obtain ⟨kind, text⟩ := value
  rw [Literal.tree] at spells
  cases tagged : kind.tag? with
  | none =>
    have verbatim : kind = .verbatim := by
      cases kind <;> first | rfl | cases tagged
    subst verbatim
    exact .verbatim ((Tree.spells_text rfl).mp spells) (formed rfl)
  | some tag =>
    have ordered : Content.under tag = .ordered ∧ tag ≠ "identifier" := by
      cases kind <;> cases tagged <;> decide
    simp only [tagged] at spells
    obtain ⟨_, listed, each⟩ := (Tree.spells_sequence rfl).mp spells
    obtain ⟨inner, _, rfl, held, last⟩ := each.of_text ordered.1 (.inr ordered.2)
    cases Tree.entriesSpell_nil.mp last
    exact .kinded listed (LiteralKind.ofTag?_eq_some.mpr tagged) held

theorem Literal.tree_spells (value : Literal) : Spells "literal" value.tree value.tree := by
  obtain ⟨kind, text⟩ := value
  cases kind with
  | verbatim => exact .text rfl rfl
  | int | float | bool | str | char => exact .sequence rfl (.entries _) (.cons (.text rfl rfl) .nil)

theorem Accessor.entries_spell (accessor : Accessor) {parent : String} :
    EntriesSpell parent accessor.entries accessor.entries := by
  cases accessor with
  | look => exact .nil
  | mutate | move | copy => exact .cons (.text rfl rfl) .nil

theorem Accessor.Written.spelled {given : Option Tree} {accessor : Accessor} {parent : String} (written : Written given accessor) :
    EntriesSpell parent accessor.entries (ifGiven "accessor" given) := by
  cases written with
  | absent => exact .nil
  | named held known =>
    unfold Accessor.ofToken? at known
    split at known <;> cases known <;> exact .cons (.text rfl held) .nil

theorem Accessor.Written.of_spells {accessor : Accessor} {parent : String} {entries : List (String × Tree)}
    (spells : EntriesSpell parent accessor.entries entries) :
    ∃ given, entries = ifGiven "accessor" given ∧ Written given accessor := by
  by_cases absent : accessor = .look
  · subst absent
    cases Tree.entriesSpell_nil.mp spells
    exact ⟨none, rfl, .absent⟩
  · have named : accessor.entries = [("accessor", .text accessor.name)] ∧ ofToken? accessor.name = some accessor := by
      cases accessor <;> first | exact absurd rfl absent | exact ⟨rfl, rfl⟩
    rw [named.1] at spells
    obtain ⟨content, _, rfl, held, last⟩ := spells.of_text rfl (.inr (by decide))
    cases Tree.entriesSpell_nil.mp last
    exact ⟨some content, rfl, .named held named.2⟩

namespace Expr

variable {expr : Expr} {level : Level} {parent tag : String} {entries standard : List (String × Tree)} {tree : Tree}

namespace WellFormed

theorem to_term (formed : expr.WellFormed .base) : expr.WellFormed .term := by
  cases expr <;> simp_all [WellFormed]

theorem to_operand (formed : expr.WellFormed .term) : expr.WellFormed .operand := by
  cases expr <;> simp_all [WellFormed]

theorem to_expression (formed : expr.WellFormed .operand) : expr.WellFormed .expression := by
  cases expr <;> simp_all [WellFormed]

theorem nodes_term (formed : expr.WellFormed .base) :
    expr.nodes .term = [("base_expression", .ofEntries (expr.nodes .base))] := by
  cases expr <;> first | rfl | simp [WellFormed] at formed

theorem nodes_operand (formed : expr.WellFormed .term) : expr.nodes .operand = [("term", .ofEntries (expr.nodes .term))] := by
  cases expr <;> first | rfl | simp [WellFormed] at formed

end WellFormed

theorem nodes_expression (expr : Expr) : expr.nodes .expression = expr.nodes .operand := by
  cases expr <;> rfl

/-- What a rule makes an expression is a spelling of the nodes that are written for it. -/
structure Spelled (level : Level) (entries : List (String × Tree)) (expr : Expr) : Prop where
  formed : expr.WellFormed level
  spells : EntriesSpell level.tag (expr.nodes level) entries

theorem Derives.spelled (derives : Derives level entries expr) : Spelled level entries expr := by
  induction derives using Derives.rec
      (motive_2 := fun entries rest _ => operandsWellFormed rest ∧ EntriesSpell "expression" (chainNodes rest) entries)
      (motive_3 := fun parameters arguments _ => argumentsWellFormed arguments ∧ ∀ parent, EntriesSpell parent
        [("function_call_parameters", .ofEntries (argumentNodes arguments))] (ifGiven "function_call_parameters" parameters))
      (motive_4 := fun entries arguments _ => argumentsWellFormed arguments ∧
        EntriesSpell "function_call_parameters" (argumentNodes arguments) entries)
      (motive_5 := fun entries items _ => allWellFormed items ∧ EntriesSpell "collection_literal" (itemNodes items) entries) with
  | literal written =>
    obtain ⟨formed, spells⟩ := written.spelled
    exact ⟨by rwa [WellFormed], .cons spells .nil⟩
  | collection alone listed _ each =>
    obtain ⟨formed, spells⟩ := each
    exact ⟨by rwa [WellFormed], .cons (.sequence rfl alone (.cons (.sequence rfl listed spells) .nil)) .nil⟩
  | identifier named => exact ⟨by simp [WellFormed], .cons (.text rfl named) .nil⟩
  | call held spelled _ each =>
    obtain ⟨formed, spells⟩ := each
    exact ⟨by rwa [WellFormed], .cons (.fields rfl held (.cons (.text rfl spelled) (spells _))) .nil⟩
  | paren listed _ ih => exact ⟨by simpa [WellFormed] using ih.formed, .cons (.sequence rfl listed ih.spells) .nil⟩
  | ofBase listed _ ih =>
    refine ⟨ih.formed.to_term, ?_⟩
    rw [ih.formed.nodes_term]
    exact .cons (.sequence rfl listed ih.spells) .nil
  | field _ held spelled ih =>
    refine ⟨by simpa [WellFormed] using ih.formed, ih.spells.append ?_⟩
    exact .cons (.fields rfl held (.cons (.text rfl spelled) .nil)) .nil
  | @method _ _ _ _ _ symbol _ _ _ held spelled _ ih each =>
    obtain ⟨formed, spells⟩ := each
    refine ⟨by simpa [WellFormed, allWellFormed_eq] using ⟨ih.formed, formed⟩, ih.spells.append ?_⟩
    refine .cons (.fields rfl held (.cons (.text rfl spelled) (.append ?_ ?_))) .nil
    · cases symbol with
      | none => exact .nil
      | some _ => exact .cons (.ignored rfl) .nil
    · rw [plainNodes_eq]
      exact spells _
  | index _ held listed _ ih within =>
    refine ⟨by simpa [WellFormed] using ⟨ih.formed, within.formed⟩, ih.spells.append ?_⟩
    exact .cons (.fields rfl held (.cons (.sequence rfl listed within.spells) .nil)) .nil
  | ofTerm listed _ ih =>
    refine ⟨ih.formed.to_operand, ?_⟩
    rw [ih.formed.nodes_operand]
    exact .cons (.sequence rfl listed ih.spells) .nil
  | unary spelled _ ih => exact ⟨by simpa [WellFormed] using ih.formed, .cons (.text rfl spelled) ih.spells⟩
  | @chain _ first _ rest _ _ ih continues =>
    obtain ⟨formed, spells⟩ := continues
    cases rest with
    | nil =>
      refine ⟨ih.formed.to_expression, ?_⟩
      rw [joined, nodes_expression, ← List.append_nil (nodes _ _)]
      exact ih.spells.append spells
    | cons next rest => exact ⟨by simpa [joined, WellFormed] using ⟨ih.formed, formed⟩, ih.spells.append spells⟩
  | done => exact ⟨trivial, .nil⟩
  | next spelled _ _ ih continues =>
    exact ⟨⟨ih.formed, continues.1⟩, .cons (.text rfl spelled) (ih.spells.append continues.2)⟩
  | absent => exact ⟨trivial, fun _ => .omitted (by decide) .nil⟩
  | listed listed _ each => exact ⟨each.1, fun _ => .cons (.sequence rfl listed each.2) .nil⟩
  | noArgument => exact ⟨trivial, .nil⟩
  | argument held written listed _ _ ih each =>
    refine ⟨⟨ih.formed, each.1⟩, .cons (.fields rfl held ?_) each.2⟩
    exact (written.spelled).append (.cons (.sequence rfl listed ih.spells) .nil)
  | noItem => exact ⟨trivial, .nil⟩
  | item listed _ _ ih each => exact ⟨⟨ih.formed, each.1⟩, .cons (.sequence rfl listed ih.spells) each.2⟩

theorem Derives.of_operand (derives : Derives .operand entries expr) : Derives .expression entries expr := by
  have alone := Derives.chain derives .done
  rwa [List.append_nil] at alone

theorem derives_ofTerm {nodes : List (String × Tree)} (higher : level ≠ .base)
    (term : ∀ entries, EntriesSpell "term" nodes entries → Derives .term entries expr)
    (spells : EntriesSpell level.tag (level.ofTerm nodes) entries) : Derives level entries expr := by
  have operand (spells : EntriesSpell "expression" [("term", .ofEntries nodes)] entries) : Derives .operand entries expr := by
    obtain ⟨content, inner, _, rfl, listed, each, last⟩ := spells.of_sequence (by decide) rfl
    cases Tree.entriesSpell_nil.mp last
    exact .ofTerm listed (term _ each)
  cases level with
  | base => exact absurd rfl higher
  | term => exact term _ spells
  | operand => exact operand spells
  | expression => exact (operand spells).of_operand

theorem derives_ofBase {node : String × Tree}
    (base : ∀ entries, EntriesSpell "base_expression" [node] entries → Derives .base entries expr)
    (spells : EntriesSpell level.tag (level.ofBase node) entries) : Derives level entries expr := by
  by_cases lowest : level = .base
  · subst lowest
    exact base _ spells
  · rw [Level.ofBase_eq lowest] at spells
    refine derives_ofTerm lowest (fun entries spells => ?_) spells
    obtain ⟨content, inner, _, rfl, listed, each, last⟩ := spells.of_sequence (by decide) rfl
    cases Tree.entriesSpell_nil.mp last
    exact .ofBase listed (base _ each)

theorem arguments_of_spells {arguments : List (Accessor × Expr)}
    (each : ∀ entries, EntriesSpell "function_call_parameters" (argumentNodes arguments) entries → EachArgument entries arguments)
    (spells : EntriesSpell parent [("function_call_parameters", .ofEntries (argumentNodes arguments))] entries) :
    ∃ parameters, entries = ifGiven "function_call_parameters" parameters ∧ Arguments parameters arguments := by
  obtain ⟨content, rest, rfl, first, last⟩ | ⟨empty, last⟩ := (Tree.entriesSpell_optional (by decide)).mp spells
  · cases Tree.entriesSpell_nil.mp last
    obtain ⟨inner, listed, spells⟩ := (Tree.spells_sequence rfl).mp first
    exact ⟨some content, rfl, .listed listed (each _ spells)⟩
  · cases Tree.entriesSpell_nil.mp last
    cases arguments with
    | nil => exact ⟨none, rfl, .absent⟩
    | cons _ _ => cases empty

theorem symbol_of_spells {marked : Bool}
    (spells : EntriesSpell parent (if marked then [("mutate_method_symbol", .text "!")] else []) entries) :
    ∃ symbol, entries = ifGiven "mutate_method_symbol" symbol ∧ symbol.isSome = marked := by
  cases marked with
  | false =>
    cases Tree.entriesSpell_nil.mp spells
    exact ⟨none, rfl, rfl⟩
  | true =>
    obtain ⟨content, rest, rfl, _, last⟩ := (Tree.entriesSpell_cons (by decide) (.inr (by decide))).mp spells
    cases Tree.entriesSpell_nil.mp last
    exact ⟨some content, rfl, rfl⟩

theorem argument_of_spells (accessor : Accessor) {value : Expr} {others : List (String × Tree)}
    {arguments : List (Accessor × Expr)}
    (derives : ∀ entries, EntriesSpell "expression" (value.nodes .expression) entries → Derives .expression entries value)
    (each : ∀ entries, EntriesSpell "function_call_parameters" others entries → EachArgument entries arguments)
    (spells : EntriesSpell "function_call_parameters" (("function_call_parameter", .ofEntries (accessor.entries ++
      [("expression", .ofEntries (value.nodes .expression))])) :: others) entries) :
    EachArgument entries ((accessor, value) :: arguments) := by
  obtain ⟨content, inner, _, rfl, held, fields, last⟩ := spells.of_fields (by decide) rfl
  obtain ⟨_, _, rfl, named, position⟩ := fields.split
  obtain ⟨given, rfl, written⟩ := Accessor.Written.of_spells named
  obtain ⟨_, inside, _, rfl, listed, within, done⟩ := position.of_sequence (by decide) rfl
  cases Tree.entriesSpell_nil.mp done
  exact .argument held written listed (derives _ within) (each _ last)

mutual

theorem derives_of_spells : (expr : Expr) → (level : Level) → (entries : List (String × Tree)) → expr.WellFormed level →
    EntriesSpell level.tag (expr.nodes level) entries → Derives level entries expr
  | literal value, level, entries, formed, spells => by
    refine derives_ofBase (fun entries spells => ?_) spells
    rw [WellFormed] at formed
    obtain ⟨content, _, rfl, spelled, last⟩ := (Tree.entriesSpell_cons (by decide) (.inr (by decide))).mp spells
    cases Tree.entriesSpell_nil.mp last
    exact .literal (.of_spells formed spelled)
  | identifier name, level, entries, formed, spells => by
    refine derives_ofBase (fun entries spells => ?_) spells
    obtain ⟨content, _, rfl, named, last⟩ := spells.of_text rfl (by decide)
    cases Tree.entriesSpell_nil.mp last
    exact .identifier named
  | call function arguments, level, entries, formed, spells => by
    refine derives_ofBase (fun entries spells => ?_) spells
    rw [WellFormed] at formed
    obtain ⟨content, inner, _, rfl, held, each, last⟩ := spells.of_fields (by decide) rfl
    cases Tree.entriesSpell_nil.mp last
    obtain ⟨named, _, rfl, spelled, each⟩ := each.of_text rfl (by decide)
    obtain ⟨parameters, rfl, arguments⟩ := arguments_of_spells (eachArgument_of_spells arguments · formed) each
    exact .call held spelled arguments
  | method receiver called marked arguments, level, entries, formed, spells => by
    rw [WellFormed] at formed
    refine derives_ofTerm formed.1 (fun entries spells => ?_) spells
    obtain ⟨begun, ended, rfl, first, last⟩ := spells.split
    obtain ⟨content, inner, _, rfl, held, each, last⟩ := last.of_fields (by decide) rfl
    cases Tree.entriesSpell_nil.mp last
    obtain ⟨named, _, rfl, spelled, each⟩ := each.of_text rfl (by decide)
    obtain ⟨_, _, rfl, mark, list⟩ := each.split
    obtain ⟨symbol, rfl, rfl⟩ := symbol_of_spells mark
    have plain := (plainArguments_of_spells arguments · formed.2.2)
    rw [plainNodes_eq] at list plain
    obtain ⟨parameters, rfl, given⟩ := arguments_of_spells plain list
    exact .method (derives_of_spells receiver .term _ formed.2.1 first) held spelled given
  | field base name, level, entries, formed, spells => by
    rw [WellFormed] at formed
    refine derives_ofTerm formed.1 (fun entries spells => ?_) spells
    obtain ⟨begun, ended, rfl, first, last⟩ := spells.split
    obtain ⟨content, inner, _, rfl, held, each, last⟩ := last.of_fields (by decide) rfl
    cases Tree.entriesSpell_nil.mp last
    obtain ⟨named, _, rfl, spelled, last⟩ := each.of_text rfl (by decide)
    cases Tree.entriesSpell_nil.mp last
    exact .field (derives_of_spells base .term _ formed.2 first) held spelled
  | index base position, level, entries, formed, spells => by
    rw [WellFormed] at formed
    refine derives_ofTerm formed.1 (fun entries spells => ?_) spells
    obtain ⟨begun, ended, rfl, first, last⟩ := spells.split
    obtain ⟨content, inner, _, rfl, held, each, last⟩ := last.of_fields (by decide) rfl
    cases Tree.entriesSpell_nil.mp last
    obtain ⟨content, inside, _, rfl, listed, within, last⟩ := each.of_sequence (by decide) rfl
    cases Tree.entriesSpell_nil.mp last
    exact .index (derives_of_spells base .term _ formed.2.1 first) held listed
      (derives_of_spells position .expression _ formed.2.2 within)
  | unary operator operand, level, entries, formed, spells => by
    rw [WellFormed] at formed
    have derives {entries} (spells : EntriesSpell "expression" (("unary_op", .text operator.token) :: operand.nodes .operand)
        entries) : Derives .operand entries (unary operator operand) := by
      obtain ⟨content, behind, rfl, spelled, each⟩ := spells.of_text rfl (by decide)
      exact .unary spelled (derives_of_spells operand .operand _ formed.2 each)
    obtain ⟨rfl | rfl, _⟩ := formed
    · exact derives spells
    · exact (derives spells).of_operand
  | chain first rest, level, entries, formed, spells => by
    rw [WellFormed] at formed
    obtain ⟨rfl, formed, some, others⟩ := formed
    obtain ⟨begun, ended, rfl, spelled, last⟩ := spells.split
    have joins : chain first rest = joined first rest := by
      cases rest with
      | nil => exact absurd rfl some
      | cons _ _ => rfl
    rw [joins]
    exact .chain (derives_of_spells first .operand _ formed spelled) (rest_of_spells rest _ others last)
  | paren inner, level, entries, formed, spells => by
    refine derives_ofBase (fun entries spells => ?_) spells
    rw [WellFormed] at formed
    obtain ⟨content, inside, _, rfl, listed, each, last⟩ := spells.of_sequence (by decide) rfl
    cases Tree.entriesSpell_nil.mp last
    exact .paren listed (derives_of_spells inner .expression _ formed each)
  | collection items, level, entries, formed, spells => by
    refine derives_ofBase (fun entries spells => ?_) spells
    rw [WellFormed] at formed
    obtain ⟨content, inside, _, rfl, alone, each, last⟩ := spells.of_sequence (by decide) rfl
    cases Tree.entriesSpell_nil.mp last
    obtain ⟨inner, _, _, rfl, listed, within, last⟩ := each.of_sequence (by decide) rfl
    cases Tree.entriesSpell_nil.mp last
    exact .collection alone listed (items_of_spells items _ formed within)

theorem rest_of_spells : (rest : List (BinaryOp × Expr)) → (entries : List (String × Tree)) → operandsWellFormed rest →
    EntriesSpell "expression" (chainNodes rest) entries → Rest entries rest
  | [], entries, _, spells => by
    cases Tree.entriesSpell_nil.mp spells
    exact .done
  | (operator, operand) :: rest, entries, formed, spells => by
    rw [operandsWellFormed] at formed
    rw [chainNodes, List.cons_append] at spells
    obtain ⟨content, _, rfl, spelled, each⟩ := spells.of_text rfl (by decide)
    obtain ⟨begun, ended, rfl, first, last⟩ := each.split
    exact .next spelled (derives_of_spells operand .operand _ formed.1 first) (rest_of_spells rest _ formed.2 last)

theorem eachArgument_of_spells : (arguments : List (Accessor × Expr)) → (entries : List (String × Tree)) →
    argumentsWellFormed arguments → EntriesSpell "function_call_parameters" (argumentNodes arguments) entries →
    EachArgument entries arguments
  | [], entries, _, spells => by
    cases Tree.entriesSpell_nil.mp spells
    exact .noArgument
  | (accessor, value) :: rest, _, formed, spells =>
    argument_of_spells accessor (derives_of_spells value .expression · formed.1) (eachArgument_of_spells rest · formed.2) spells

theorem plainArguments_of_spells : (arguments : List Expr) → (entries : List (String × Tree)) →
    allWellFormed arguments → EntriesSpell "function_call_parameters" (plainNodes arguments) entries →
    EachArgument entries (arguments.map (Accessor.look, ·))
  | [], entries, _, spells => by
    cases Tree.entriesSpell_nil.mp spells
    exact .noArgument
  | value :: rest, _, formed, spells =>
    argument_of_spells .look (derives_of_spells value .expression · formed.1)
      (plainArguments_of_spells rest · formed.2) spells

theorem items_of_spells : (items : List Expr) → (entries : List (String × Tree)) → allWellFormed items →
    EntriesSpell "collection_literal" (itemNodes items) entries → Items entries items
  | [], entries, _, spells => by
    cases Tree.entriesSpell_nil.mp spells
    exact .noItem
  | item :: rest, entries, formed, spells => by
    rw [allWellFormed] at formed
    rw [itemNodes] at spells
    obtain ⟨content, _, _, rfl, listed, within, last⟩ := spells.of_sequence (by decide) rfl
    exact .item listed (derives_of_spells item .expression _ formed.1 within) (items_of_spells rest _ formed.2 last)

end

section Standard

theorem Level.ofTerm_spells {nodes : List (String × Tree)} (spells : ∀ parent, EntriesSpell parent nodes nodes) :
    EntriesSpell parent (level.ofTerm nodes) (level.ofTerm nodes) := by
  cases level with
  | base | term => exact spells _
  | operand | expression => exact .cons (.sequence rfl (.entries _) (spells _)) .nil

theorem Level.ofBase_spells {node : String × Tree} (spells : ∀ parent, EntriesSpell parent [node] [node]) :
    EntriesSpell parent (level.ofBase node) (level.ofBase node) := by
  have term : ∀ parent, EntriesSpell parent [("base_expression", .ofEntries [node])] [("base_expression", .ofEntries [node])] :=
    fun _ => .cons (.sequence rfl (.entries _) (spells _)) .nil
  by_cases lowest : level = .base
  · subst lowest
    exact spells _
  · rw [Level.ofBase_eq lowest]
    exact Level.ofTerm_spells term

/-- A set of fields that are written out in their standard order. -/
theorem fields_spell {fields : List (String × Tree)} (set : Content.under tag = .fields)
    (distinct : (fields.map Prod.fst).Nodup) (spells : EntriesSpell tag fields fields) :
    EntriesSpell parent [(tag, .ofEntries fields)] [(tag, .ofEntries fields)] :=
  .cons (.fields set (Tree.holds_ofEntries distinct) spells) .nil

mutual

theorem nodes_spell : (expr : Expr) → (level : Level) → (parent : String) →
    EntriesSpell parent (expr.nodes level) (expr.nodes level)
  | literal value, _, _ => Level.ofBase_spells fun _ => .cons value.tree_spells .nil
  | identifier _, _, _ => Level.ofBase_spells fun _ => .cons (.text rfl rfl) .nil
  | call _ arguments, _, _ => by
    refine Level.ofBase_spells fun _ => fields_spell rfl (by simp) (.cons (.text rfl rfl) (.cons ?_ .nil))
    exact .sequence rfl (.entries _) (argumentNodes_spell arguments)
  | method receiver called marked arguments, _, _ => by
    refine Level.ofTerm_spells fun _ => (nodes_spell receiver .term _).append (fields_spell rfl ?_ (.cons (.text rfl rfl) ?_))
    · cases marked <;> simp
    · refine .append ?_ (.cons (.sequence rfl (.entries _) (plainNodes_spell arguments)) .nil)
      cases marked with
      | false => exact .nil
      | true => exact .cons (.ignored rfl) .nil
  | field base _, _, _ =>
    Level.ofTerm_spells fun _ => (nodes_spell base .term _).append (fields_spell rfl (by simp) (.cons (.text rfl rfl) .nil))
  | index base position, _, _ => by
    refine Level.ofTerm_spells fun _ => (nodes_spell base .term _).append (fields_spell rfl (by simp) (.cons ?_ .nil))
    exact .sequence rfl (.entries _) (nodes_spell position .expression _)
  | unary _ operand, _, _ => .cons (.text rfl rfl) (nodes_spell operand .operand _)
  | chain first rest, _, _ => (nodes_spell first .operand _).append (chainNodes_spell rest _)
  | paren inner, _, _ =>
    Level.ofBase_spells fun _ => .cons (.sequence rfl (.entries _) (nodes_spell inner .expression _)) .nil
  | collection items, _, _ => by
    refine Level.ofBase_spells fun _ => .cons (.sequence rfl (.entries _) (.cons ?_ .nil)) .nil
    exact .sequence rfl (.entries _) (itemNodes_spell items _)

theorem chainNodes_spell : (rest : List (BinaryOp × Expr)) → (parent : String) →
    EntriesSpell parent (chainNodes rest) (chainNodes rest)
  | [], _ => .nil
  | (_, operand) :: rest, _ => .cons (.text rfl rfl) ((nodes_spell operand .operand _).append (chainNodes_spell rest _))

theorem argumentNodes_spell : (arguments : List (Accessor × Expr)) →
    EntriesSpell "function_call_parameters" (argumentNodes arguments) (argumentNodes arguments)
  | [] => .nil
  | (accessor, value) :: rest => by
    refine .append (fields_spell rfl ?_ (.append accessor.entries_spell (.cons ?_ .nil))) (argumentNodes_spell rest)
    · cases accessor <;> simp [Accessor.entries]
    · exact .sequence rfl (.entries _) (nodes_spell value .expression _)

theorem plainNodes_spell : (arguments : List Expr) →
    EntriesSpell "function_call_parameters" (plainNodes arguments) (plainNodes arguments)
  | [] => .nil
  | value :: rest => by
    refine .append (fields_spell rfl (by simp) (.cons ?_ .nil)) (plainNodes_spell rest)
    exact .sequence rfl (.entries _) (nodes_spell value .expression _)

theorem itemNodes_spell : (items : List Expr) → (parent : String) →
    EntriesSpell parent (itemNodes items) (itemNodes items)
  | [], _ => .nil
  | item :: rest, _ => .cons (.sequence rfl (.entries _) (nodes_spell item .expression _)) (itemNodes_spell rest _)

end

end Standard

theorem reads_iff : Reads level tree expr ↔
    expr.WellFormed level ∧ Spells level.tag (.ofEntries (expr.nodes level)) tree := by
  have ordered : Content.under level.tag = .ordered := by cases level <;> rfl
  rw [Tree.spells_sequence ordered]
  constructor
  · intro ⟨entries, listed, derives⟩
    exact ⟨derives.spelled.formed, entries, listed, derives.spelled.spells⟩
  · intro ⟨formed, entries, listed, spells⟩
    exact ⟨entries, listed, derives_of_spells expr level entries formed spells⟩

theorem reads_standard : Reads level (.ofEntries (expr.nodes level)) expr ↔ expr.WellFormed level := by
  constructor
  · intro reads
    exact (reads_iff.mp reads).1
  · intro formed
    exact ⟨_, .entries _, derives_of_spells expr level _ formed (nodes_spell expr level _)⟩

theorem Derives.no_infix (derives : Derives level entries expr) (single : level ≠ .expression) :
    "infix_op" ∉ entries.map Prod.fst := by
  induction derives using Derives.rec (motive_2 := fun _ _ _ => True) (motive_3 := fun _ _ _ => True)
      (motive_4 := fun _ _ _ => True) (motive_5 := fun _ _ _ => True) with
  | literal | collection | identifier | call | paren | ofBase | ofTerm => simp
  | field _ _ _ ih | method _ _ _ _ ih | index _ _ _ _ ih => simpa using ih nofun
  | unary _ _ ih => simpa using ih nofun
  | chain => exact absurd rfl single
  | done | next | absent | listed | noArgument | argument | noItem | item => trivial

/-- An expression is a chain exactly where a binary operator stands among its nodes. -/
theorem Derives.isChain_iff (derives : Derives .expression entries expr) :
    expr.isChain = true ↔ "infix_op" ∈ entries.map Prod.fst := by
  cases derives with
  | chain begins continues =>
    have none := begins.no_infix nofun
    cases continues with
    | done => simpa [joined, begins.not_chain nofun] using none
    | next => simp [joined, isChain]

/-- Each reader accepts exactly what its rules make an expression. What is accepted is a spelling of
the nodes of the result in their order, and these nodes are read as the result again. -/
theorem reading_exact (tree : Tree) (expr : Expr) :
    (ofTree tree = .ok expr ↔ Reads .expression tree expr) ∧
    (ofTerm tree = .ok expr ↔ Reads .term tree expr) ∧
    (ofBase tree = .ok expr ↔ Reads .base tree expr) ∧
    (∀ level, Reads level tree expr ↔
      expr.WellFormed level ∧ Spells level.tag (.ofEntries (expr.nodes level)) tree) ∧
    (∀ level, Reads level (.ofEntries (expr.nodes level)) expr ↔ expr.WellFormed level) ∧
    ∀ entries, Derives .expression entries expr → (expr.isChain = true ↔ "infix_op" ∈ entries.map Prod.fst) :=
  ⟨ofTree_iff, ofTerm_iff, ofBase_iff, fun _ => reads_iff, fun _ => reads_standard, fun _ => Derives.isChain_iff⟩

end Expr
end Lowering
