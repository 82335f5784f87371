import Lowering.Proofs.DeclaredTypes
import Lowering.Proofs.ExprParts

/-! Collection literals in the declaration of a variable, against the containers that its type names.
The literal itself becomes whatever container the type names. The literals within it become vectors,
whatever the type says of them. -/

namespace Lowering

open Lowering.DeclaredType (Level Describes chainText)

/-- A literal stands at this level of the expression, counted from the outside. -/
inductive Expr.HasLiteral : Expr → Nat → Prop where
  | self {items} : HasLiteral (collection items) 0
  | enclosed {inner level} (inside : HasLiteral inner level) : HasLiteral (paren inner) level
  | item {items item level} (one : item ∈ items) (inside : HasLiteral item level) :
    HasLiteral (collection items) (level + 1)

/-- The text of a value by its literals, down to the values that they hold. -/
inductive Construction where
  | value (text : String)
  | enclosed (inner : Construction)
  /-- A literal that becomes the container that is wanted where it stands. -/
  | converted (items : List Construction)
  /-- A literal that becomes a vector. -/
  | vector (items : List Construction)

section Levels

variable {inner : Expr} {items : List Expr} {level : Nat}

@[simp] theorem Expr.hasLiteral_paren : (paren inner).HasLiteral level ↔ inner.HasLiteral level :=
  ⟨fun | .enclosed inside => inside, .enclosed⟩

@[simp] theorem Expr.hasLiteral_zero : (collection items).HasLiteral 0 :=
  .self

@[simp] theorem Expr.hasLiteral_succ :
    (collection items).HasLiteral (level + 1) ↔ ∃ item ∈ items, item.HasLiteral level :=
  ⟨fun | .item one inside => ⟨_, one, inside⟩, fun ⟨_, one, inside⟩ => .item one inside⟩

/-- A literal is not stored anywhere. -/
theorem Expr.HasLiteral.temporary {expr : Expr} (literal : expr.HasLiteral level) : expr.isStored = false := by
  induction literal with
  | self | item => rfl
  | enclosed _ ih => exact ih

end Levels

namespace Construction

mutual

def text : Construction → String
  | value text => text
  | enclosed inner => "(" ++ inner.text ++ ")"
  | converted items => Expr.vector (texts items) ++ ".into()"
  | vector items => "SnVector::from(" ++ Expr.vector (texts items) ++ ")"

def texts : List Construction → List String
  | [] => []
  | item :: items => item.text :: texts items

end

/-- A literal at this level, counted from the outside, becomes a vector. -/
inductive MakesVector : Construction → Nat → Prop where
  | self {items} : MakesVector (vector items) 0
  | enclosed {inner level} (inside : MakesVector inner level) : MakesVector (enclosed inner) level
  | inConverted {items item level} (one : item ∈ items) (inside : MakesVector item level) :
    MakesVector (converted items) (level + 1)
  | inVector {items item level} (one : item ∈ items) (inside : MakesVector item level) :
    MakesVector (vector items) (level + 1)

/-- The text has the type of these containers, as long as the values in them have the types that are wanted
of them. -/
inductive Fits : Construction → List Level → Prop where
  | value {text levels} : Fits (value text) levels
  | enclosed {inner levels} (inside : Fits inner levels) : Fits (enclosed inner) levels
  | converted {items level levels} (each : ∀ item ∈ items, Fits item levels) : Fits (converted items) (level :: levels)
  | vector {items levels} (each : ∀ item ∈ items, Fits item levels) : Fits (vector items) (.vector :: levels)

mutual

/-- Writes out a value for a new owner and keeps its literals apart. -/
def ofExpr (signatures : Signatures) : Expr → Action Construction
  | .collection items => vector <$> ofItems signatures items
  | .paren inner =>
    -- What is stored is duplicated as a whole and has no literals.
    if inner.isStored then value <$> (Expr.paren inner).ownedCode signatures
    else enclosed <$> ofExpr signatures inner
  | expr => value <$> expr.ownedCode signatures

def ofItems (signatures : Signatures) : List Expr → Action (List Construction)
  | [] => return []
  | item :: items => do
    let first ← ofExpr signatures item
    return first :: (← ofItems signatures items)

end

/-- Writes out the value of a new variable whose type is declared. -/
def ofDeclared (signatures : Signatures) : Expr → Action Construction
  | .collection items => converted <$> ofItems signatures items
  | expr => ofExpr signatures expr

section Rules

variable {text : String} {inner : Construction} {items : List Construction} {level : Nat} {wanted : Level}
  {levels : List Level}

@[simp] theorem makesVector_value : ¬ (value text).MakesVector level :=
  nofun

@[simp] theorem makesVector_enclosed : (enclosed inner).MakesVector level ↔ inner.MakesVector level :=
  ⟨fun | .enclosed inside => inside, .enclosed⟩

@[simp] theorem makesVector_vector_zero : (vector items).MakesVector 0 :=
  .self

@[simp] theorem makesVector_vector_succ :
    (vector items).MakesVector (level + 1) ↔ ∃ item ∈ items, item.MakesVector level :=
  ⟨fun | .inVector one inside => ⟨_, one, inside⟩, fun ⟨_, one, inside⟩ => .inVector one inside⟩

@[simp] theorem makesVector_converted_zero : ¬ (converted items).MakesVector 0 :=
  nofun

@[simp] theorem makesVector_converted_succ :
    (converted items).MakesVector (level + 1) ↔ ∃ item ∈ items, item.MakesVector level :=
  ⟨fun | .inConverted one inside => ⟨_, one, inside⟩, fun ⟨_, one, inside⟩ => .inConverted one inside⟩

@[simp] theorem fits_value : (value text).Fits levels :=
  .value

@[simp] theorem fits_enclosed : (enclosed inner).Fits levels ↔ inner.Fits levels :=
  ⟨fun | .enclosed inside => inside, .enclosed⟩

@[simp] theorem fits_vector_nil : ¬ (vector items).Fits [] :=
  nofun

@[simp] theorem fits_vector_cons :
    (vector items).Fits (wanted :: levels) ↔ wanted = .vector ∧ ∀ item ∈ items, item.Fits levels :=
  ⟨fun | .vector each => ⟨rfl, each⟩, fun ⟨same, each⟩ => same ▸ .vector each⟩

@[simp] theorem fits_converted_cons :
    (converted items).Fits (wanted :: levels) ↔ ∀ item ∈ items, item.Fits levels :=
  ⟨fun | .converted each => each, .converted⟩

end Rules

section Texts

variable (signatures : Signatures)

theorem ownedCode_temporary {expr : Expr} (temporary : expr.isStored = false) :
    expr.ownedCode signatures = expr.code signatures .value := by
  simp [Expr.ownedCode, Expr.own, temporary]

mutual

theorem ofExpr_text : (expr : Expr) → text <$> ofExpr signatures expr = expr.ownedCode signatures
  | .collection items => by
    rw [ownedCode_temporary signatures rfl, Expr.code, ← ofItems_texts items, ofExpr]
    simp [text]
  | .paren inner => by
    rw [ofExpr]
    split
    next => simp [text]
    next temporary =>
      have owned := ofExpr_text inner
      rw [ownedCode_temporary signatures (by simpa using temporary)] at owned
      rw [ownedCode_temporary signatures (by simpa [Expr.isStored, Expr.root?] using temporary), Expr.code,
        if_neg temporary, ← owned]
      simp [text]
  | .literal _ | .identifier _ | .call _ _ | .method _ _ _ _ | .field _ _ | .index _ _ | .unary _ _ | .chain _ _ => by
    simp [ofExpr, text]

theorem ofItems_texts : (items : List Expr) → texts <$> ofItems signatures items = Expr.ownedCodes signatures items
  | [] => by simp [ofItems, texts, Expr.ownedCodes]
  | item :: items => by
    have first := ofExpr_text item
    have later := ofItems_texts items
    rw [Expr.ownedCodes]
    change _ = item.ownedCode signatures >>= _
    rw [← first, ← later, ofItems]
    simp [texts]

end

end Texts

/-- Every literal of the expression becomes a vector, so the text has a type exactly if the type has a vector at
every level at which a literal stands. -/
structure Mirrors (built : Construction) (expr : Expr) : Prop where
  makes : ∀ level, built.MakesVector level ↔ expr.HasLiteral level
  fits : ∀ levels : List Level, built.Fits levels ↔ ∀ level, expr.HasLiteral level → levels[level]? = some .vector

section Mirrored

variable {expr inner : Expr} {items : List Expr} {built : Construction} {builts : List Construction} {text : String}

theorem Mirrors.value (plain : ∀ level, ¬ expr.HasLiteral level) : Mirrors (value text) expr where
  makes level := by simp [plain]
  fits levels := by simp [plain]

theorem Mirrors.enclosed (mirrors : Mirrors built inner) : Mirrors (enclosed built) (.paren inner) where
  makes level := by simp [mirrors.makes]
  fits levels := by simp [mirrors.fits]

theorem items_make (each : List.Forall₂ Mirrors builts items) (level : Nat) :
    (∃ built ∈ builts, built.MakesVector level) ↔ ∃ item ∈ items, item.HasLiteral level := by
  induction each with
  | nil => simp
  | cons first _ ih => simp only [List.exists_mem_cons_iff, first.makes, ih]

theorem items_fit (each : List.Forall₂ Mirrors builts items) (levels : List Level) :
    (∀ built ∈ builts, built.Fits levels) ↔
      ∀ level, (∃ item ∈ items, item.HasLiteral level) → levels[level]? = some .vector := by
  induction each with
  | nil => simp
  | cons first _ ih => simp only [List.forall_mem_cons, List.exists_mem_cons_iff, first.fits, ih, or_imp, forall_and]

theorem Mirrors.vector (each : List.Forall₂ Mirrors builts items) : Mirrors (vector builts) (.collection items) where
  makes level := by
    cases level with
    | zero => simp
    | succ level => simp [items_make each]
  fits levels := by
    cases levels with
    | nil => simpa using ⟨0, Expr.HasLiteral.self⟩
    | cons wanted levels =>
      rw [fits_vector_cons, items_fit each]
      constructor
      · rintro ⟨rfl, deeper⟩ level literal
        cases level with
        | zero => rfl
        | succ level => exact deeper level (Expr.hasLiteral_succ.mp literal)
      · intro all
        exact ⟨Option.some.inj (all 0 .self), fun level literal => all (level + 1) (Expr.hasLiteral_succ.mpr literal)⟩

mutual

theorem ofExpr_mirrors {signatures : Signatures} : (expr : Expr) → {before after : Work} → {built : Construction} →
    ofExpr signatures expr before = (.ok built, after) → built.Mirrors expr
  | .collection items, before, after, built, ran => by
    rw [ofExpr] at ran
    obtain ⟨builts, listed, rfl⟩ := map_ok.mp ran
    exact .vector (ofItems_mirrors items listed)
  | .paren inner, before, after, built, ran => by
    rw [ofExpr] at ran
    split at ran
    next stored =>
      obtain ⟨text, _, rfl⟩ := map_ok.mp ran
      refine .value fun level literal => ?_
      rw [(Expr.hasLiteral_paren.mp literal).temporary] at stored
      cases stored
    next =>
      obtain ⟨within, enclosed, rfl⟩ := map_ok.mp ran
      exact .enclosed (ofExpr_mirrors inner enclosed)
  | .literal _, _, _, _, ran | .identifier _, _, _, _, ran | .call _ _, _, _, _, ran | .method _ _ _ _, _, _, _, ran
  | .field _ _, _, _, _, ran | .index _ _, _, _, _, ran | .unary _ _, _, _, _, ran | .chain _ _, _, _, _, ran => by
    rw [ofExpr] at ran
    · obtain ⟨text, _, rfl⟩ := map_ok.mp ran
      exact .value nofun
    all_goals simp

theorem ofItems_mirrors {signatures : Signatures} : (items : List Expr) → {before after : Work} →
    {builts : List Construction} → ofItems signatures items before = (.ok builts, after) →
    List.Forall₂ Mirrors builts items
  | [], before, after, builts, ran => by
    rw [ofItems] at ran
    obtain ⟨rfl, _⟩ := pure_ok.mp ran
    exact .nil
  | item :: items, before, after, builts, ran => by
    rw [ofItems] at ran
    obtain ⟨first, _, owned, ran⟩ := bind_ok.mp ran
    obtain ⟨later, _, listed, same⟩ := bind_ok.mp ran
    obtain ⟨rfl, _⟩ := pure_ok.mp same
    exact .cons (ofExpr_mirrors item owned) (ofItems_mirrors items listed)

end

theorem bindingCode_eq (context : BodyContext) (mutable : Bool) (name : String) (tree : Tree) (value : Expr) :
    Statement.bindingCode context mutable name (some tree) value = (do
      let initial ← ofDeclared context.signatures value
      Action.declare name (.declared mutable)
      let type ← DeclaredType.code tree
      return (if mutable then "let mut " else "let ") ++ (← Name.code name) ++ (": " ++ type) ++ " = " ++
        initial.text ++ ";\n") := by
  cases value with
  | collection items =>
    have listed : (· ++ ".into()") <$> (Expr.collection items).itemsCode context.signatures =
        text <$> ofDeclared context.signatures (.collection items) := by
      rw [Expr.itemsCode, ← ofItems_texts, ofDeclared]
      simp [text]
    simp only [Statement.bindingCode, listed, bind_map_left]
  | _ => simp only [Statement.bindingCode, ← ofExpr_text, ofDeclared, bind_map_left]

/-- Every literal becomes a vector, except for the value itself. -/
theorem ofDeclared_makes {signatures : Signatures} {value : Expr} {before after : Work} {initial : Construction}
    (ran : ofDeclared signatures value before = (.ok initial, after)) (level : Nat) :
    initial.MakesVector level ↔ value.HasLiteral level ∧ ¬ (level = 0 ∧ ∃ items, value = .collection items) := by
  cases value with
  | collection items =>
    rw [ofDeclared] at ran
    obtain ⟨builts, listed, rfl⟩ := map_ok.mp ran
    cases level with
    | zero => simp
    | succ level => simp [items_make (ofItems_mirrors items listed)]
  | _ => simp [(ofExpr_mirrors _ ran).makes]

theorem getElem?_vector (levels : List Level) (level : Nat) :
    levels[level]? = some .vector ↔ level < levels.length ∧ levels[level]? ≠ some .array := by
  cases found : levels[level]? with
  | none => simpa using List.getElem?_eq_none_iff.mp found
  | some wanted =>
    have within := (List.getElem?_eq_some_iff.mp found).1
    cases wanted <;> simp [within]

theorem ofDeclared_fits {signatures : Signatures} {value : Expr} {before after : Work} {initial : Construction}
    (ran : ofDeclared signatures value before = (.ok initial, after)) (levels : List Level) :
    initial.Fits levels ↔ (∀ level, value.HasLiteral level → level < levels.length) ∧
      ∀ level, initial.MakesVector level → levels[level]? ≠ some .array := by
  cases value with
  | collection items =>
    rw [ofDeclared] at ran
    obtain ⟨builts, listed, rfl⟩ := map_ok.mp ran
    have each := ofItems_mirrors items listed
    cases levels with
    | nil => exact ⟨nofun, fun ⟨below, _⟩ => absurd (below 0 .self) (Nat.not_lt_zero 0)⟩
    | cons wanted levels =>
      -- The value itself is there at level 0 and is no vector, so only the items count.
      have shallow : (∀ level, (Expr.collection items).HasLiteral level → level < (wanted :: levels).length) ↔
          ∀ level, (∃ item ∈ items, item.HasLiteral level) → level < levels.length := by
        rw [← Nat.and_forall_add_one]
        simp
      have spared : (∀ level, (converted builts).MakesVector level → (wanted :: levels)[level]? ≠ some .array) ↔
          ∀ level, (∃ item ∈ items, item.HasLiteral level) → levels[level]? ≠ some .array := by
        rw [← Nat.and_forall_add_one]
        simp [items_make each]
      simp only [fits_converted_cons, items_fit each, shallow, spared, getElem?_vector, imp_and, forall_and]
  | _ =>
    have mirrors := ofExpr_mirrors _ ran
    simp only [mirrors.fits, mirrors.makes, getElem?_vector, imp_and, forall_and]

end Mirrored

end Construction

/-- The type names an array for none of the literals, except for the value itself. -/
def Expr.AvoidsArrays (value : Expr) (levels : List DeclaredType.Level) : Prop :=
  ∀ level, levels[level]? = some .array → value.HasLiteral level → level = 0 ∧ ∃ items, value = .collection items

/-- A variable with a declared type is given its value literal by literal. The text makes no vector where the
type names an array exactly if the type names an array for no literal within the value. It has the declared
type exactly if, besides, no more literals stand within each other than the type has containers. -/
theorem Statement.literals_built_iff {context : BodyContext} {mutable : Bool} {name : String} {tree : Tree}
    {value : Expr} {before after : Work} {written : StatementCode}
    (ran : (binding mutable name (some tree) value).code context before = (.ok written, after)) :
    ∃ levels scalar type word initial middle,
      Describes tree levels scalar ∧ DeclaredType.code tree = .ok type ∧ Name.code name = .ok word ∧
      Construction.ofDeclared context.signatures value before = (.ok initial, middle) ∧
      written.text = (if mutable then "let mut " else "let ") ++ word ++ ": " ++ type ++ " = " ++ initial.text ++ ";\n" ∧
      ((∀ level, levels[level]? = some .array → ¬ initial.MakesVector level) ↔ value.AvoidsArrays levels) ∧
      (initial.Fits levels ↔
        (∀ level, value.HasLiteral level → level < levels.length) ∧ value.AvoidsArrays levels) := by
  rw [code, Construction.bindingCode_eq] at ran
  obtain ⟨text, _, bound, same⟩ := bind_ok.mp ran
  obtain ⟨rfl, _⟩ := pure_ok.mp same
  obtain ⟨initial, middle, built, bound⟩ := bind_ok.mp bound
  obtain ⟨_, _, _, bound⟩ := bind_ok.mp bound
  obtain ⟨type, _, typed, bound⟩ := bind_ok.mp bound
  obtain ⟨word, _, spelled, same⟩ := bind_ok.mp bound
  obtain ⟨rfl, _⟩ := pure_ok.mp same
  have declared := (lift_ok.mp typed).1
  obtain ⟨levels, scalar, _, describes, _⟩ := DeclaredType.exists_describes tree type declared
  have spared : (∀ level, levels[level]? = some .array → ¬ initial.MakesVector level) ↔ value.AvoidsArrays levels := by
    simp only [Expr.AvoidsArrays, Construction.ofDeclared_makes built, not_and_not_right]
  refine ⟨levels, scalar, type, word, initial, middle, describes, declared, (lift_ok.mp spelled).1, built, ?_, spared, ?_⟩
  · simp [String.append_assoc]
  · rw [Construction.ofDeclared_fits built, ← spared]
    exact and_congr_right fun _ => forall_congr' fun level => imp_not_comm

section Samples

private def listsOf (outer inner : Level) : Tree :=
  .ofEntries [("base_type", .text outer.name),
    ("type", .ofEntries [("base_type", .text inner.name), ("type", .ofEntries [("base_type", .text "Int")])])]

private theorem listsOf_describes (outer inner : Level) : Describes (listsOf outer inner) [outer, inner] "Int" := by
  refine .container (Tree.holds_ofEntries (by simp)) rfl (.container (Tree.holds_ofEntries (by simp)) rfl ?_)
  exact .scalar (Tree.holds_ofEntries (by simp)) rfl rfl

private def oneInLists : Expr :=
  .collection [.collection [.literal ⟨.int, "1"⟩]]

private def declaredLists (outer inner : Level) : Statement :=
  .binding true "v" (some (listsOf outer inner)) oneInLists

private theorem declaredLists_code (outer inner : Level) : (declaredLists outer inner).code ⟨⟨[]⟩, false⟩ ⟨.initial, []⟩ =
    (.ok ⟨.var, "let mut sn_v: " ++ chainText [outer, inner] "i64" ++ " = vec![SnVector::from(vec![1])].into();\n", false⟩,
      ⟨⟨[("v", ⟨.declared true, false, 0⟩)], [], 0⟩, []⟩) := by
  rw [declaredLists, Statement.code, Construction.bindingCode_eq, (listsOf_describes outer inner).code rfl]
  cases outer <;> cases inner <;> rfl

private theorem oneInLists_shallow {level : Nat} (literal : oneInLists.HasLiteral level) : level < 2 := by
  match level, literal with
  | 0, _ | 1, _ => omega
  | _ + 2, .item one (.item two inside) =>
    cases List.mem_singleton.mp one
    cases List.mem_singleton.mp two
    cases inside

theorem Statement.inner_vector_built :
    ∃ initial middle after, (declaredLists .array .vector).code ⟨⟨[]⟩, false⟩ ⟨.initial, []⟩ =
        (.ok ⟨.var, "let mut sn_v: SnArray<SnVector<i64>> = vec![SnVector::from(vec![1])].into();\n", false⟩, after) ∧
      Construction.ofDeclared ⟨[]⟩ oneInLists ⟨.initial, []⟩ = (.ok initial, middle) ∧
      initial.text = "vec![SnVector::from(vec![1])].into()" ∧ initial.Fits [.array, .vector] := by
  have ran := declaredLists_code .array .vector
  obtain ⟨levels, scalar, _, _, initial, middle, describes, _, _, built, _, _, fits⟩ := literals_built_iff ran
  obtain ⟨rfl, rfl⟩ := describes.unique (listsOf_describes .array .vector)
  have shallow : ∀ level, oneInLists.HasLiteral level → level < [Level.array, Level.vector].length :=
    fun _ => oneInLists_shallow
  have outermost : oneInLists.AvoidsArrays [.array, .vector] := by
    intro level array literal
    match level, oneInLists_shallow literal with
    | 0, _ => exact ⟨rfl, _, rfl⟩
    | 1, _ => cases array
  have text : initial.text = "vec![SnVector::from(vec![1])].into()" := by
    cases built
    rfl
  exact ⟨initial, middle, _, ran, built, text, fits.mpr ⟨shallow, outermost⟩⟩

/-- The type names an array within a vector, and the text makes a vector within a vector. -/
theorem Statement.inner_array_built_as_vector :
    ∃ initial middle after, (declaredLists .vector .array).code ⟨⟨[]⟩, false⟩ ⟨.initial, []⟩ =
        (.ok ⟨.var, "let mut sn_v: SnVector<SnArray<i64>> = vec![SnVector::from(vec![1])].into();\n", false⟩, after) ∧
      Describes (listsOf .vector .array) [.vector, .array] "Int" ∧
      (∀ level, oneInLists.HasLiteral level → level < 2) ∧
      Construction.ofDeclared ⟨[]⟩ oneInLists ⟨.initial, []⟩ = (.ok initial, middle) ∧
      initial.text = "vec![SnVector::from(vec![1])].into()" ∧
      initial.MakesVector 1 ∧ ¬ initial.Fits [.vector, .array] := by
  refine ⟨.converted [.vector [.value "1"]], _, _, declaredLists_code .vector .array, listsOf_describes .vector .array,
    fun _ => oneInLists_shallow, rfl, rfl, ?_, ?_⟩
  · exact .inConverted List.mem_cons_self .self
  · intro fits
    cases Construction.fits_converted_cons.mp fits _ List.mem_cons_self

end Samples

end Lowering
