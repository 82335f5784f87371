import Lowering.DeclaredType
import Lowering.Proofs.ExprReaders
import Lowering.Proofs.FieldSets

/-! The grammar of declared types. A type tree is written out exactly if it is a chain of containers that
ends in a scalar, and its text says no more and no less than the chain: only the order of the fields and
two names that have a longer form are lost in it. -/

namespace Lowering

/-- All orders of the same fields lead to the same contents. -/
theorem Tree.Holds.lookup_unique {tree : Tree} {one other : List (String × Tree)} (first : tree.Holds one)
    (second : tree.Holds other) (tag : String) : one.lookup tag = other.lookup tag := by
  obtain ⟨_, listed, lists, order⟩ := first
  obtain ⟨distinct, again, lists', order'⟩ := second
  cases lists.unique lists'
  exact lookup_perm (order.symm.trans order') distinct tag

namespace DeclaredType

/-- A container in a type. -/
inductive Level where
  | vector
  | array
deriving DecidableEq, Repr

namespace Level

/-- The name that a type tree has for the container. -/
def name : Level → String
  | vector => "Vector"
  | array => "Array"

/-- The container's own type. -/
def word : Level → String
  | vector => "SnVector"
  | array => "SnArray"

theorem name_injective : Function.Injective name := by
  intro one other same
  cases one <;> cases other <;> simp_all [name]

theorem enclosed_inj {one other : Level} {inner inner' : String}
    (same : one.word ++ "<" ++ inner ++ ">" = other.word ++ "<" ++ inner' ++ ">") : one = other ∧ inner = inner' := by
  -- The third characters of the two words differ.
  have third := congrArg (fun text => text.toList[2]?) same
  have alike : one = other := by
    cases one <;> cases other <;> simp [word] at third ⊢
  subst alike
  exact ⟨rfl, by simpa using same⟩

end Level

/-- The tree describes these containers, from the outside in, and the scalar with this name within them. -/
inductive Describes : Tree → List Level → String → Prop where
  | scalar {tree base name} (held : tree.Holds [("base_type", base)]) (named : base.leaf? = some name)
    (known : (scalar? name).isSome = true) : Describes tree [] name
  | container {tree base inner level levels name} (held : tree.Holds [("base_type", base), ("type", inner)])
    (named : base.leaf? = some (Level.name level)) (element : Describes inner levels name) :
    Describes tree (level :: levels) name

/-- The name that stands for the same scalar as this one and is not a short form. -/
def fullName : String → String
  | "Int" => "Int64"
  | "Float" => "Float64"
  | name => name

/-- The text of a chain of containers around a scalar. -/
def chainText (levels : List Level) (word : String) : String :=
  String.join (levels.map fun level => level.word ++ "<") ++ word ++ String.ofList (List.replicate levels.length '>')

theorem chainText_nil (word : String) : chainText [] word = word := by
  simp [chainText]

theorem chainText_cons (level : Level) (levels : List Level) (word : String) :
    chainText (level :: levels) word = level.word ++ "<" ++ chainText levels word ++ ">" := by
  simp only [chainText, List.map_cons, String.join_cons, List.length_cons, List.replicate_succ', String.ofList_append]
  simp [String.append_assoc]

section Tables

variable {base name word : String}

theorem container?_eq_some {container : String} :
    container? base = some container ↔ ∃ level : Level, base = level.name ∧ container = level.word := by
  constructor
  · intro found
    unfold container? at found
    split at found <;> cases found
    · exact ⟨.vector, rfl, rfl⟩
    · exact ⟨.array, rfl, rfl⟩
  · rintro ⟨level, rfl, rfl⟩
    cases level <;> rfl

theorem container?_of_scalar (known : scalar? name = some word) : container? name = none := by
  unfold scalar? at known
  split at known <;> cases known
  all_goals rfl

theorem scalar?_word (known : scalar? name = some word) : '<' ∉ word.toList := by
  unfold scalar? at known
  split at known <;> cases known
  all_goals decide

/-- The full name of the scalar that is written so. -/
private def fullNameOf : String → String
  | "i64" => "Int64"
  | "i32" => "Int32"
  | "i16" => "Int16"
  | "i8" => "Int8"
  | "u64" => "Uint64"
  | "u32" => "Uint32"
  | "u16" => "Uint16"
  | "u8" => "Uint8"
  | "f64" => "Float64"
  | "f32" => "Float32"
  | "bool" => "Bool"
  | "char" => "Char"
  | "SnString" => "String"
  | word => word

private theorem fullNameOf_word (known : scalar? name = some word) : fullNameOf word = fullName name := by
  unfold scalar? at known
  split at known <;> cases known
  all_goals rfl

theorem scalar?_fullName (name : String) : scalar? (fullName name) = scalar? name := by
  unfold fullName
  split <;> rfl

/-- Two names of scalars are written alike exactly if they have the same full name. -/
theorem scalar?_eq_iff {other word' : String} (known : scalar? name = some word) (known' : scalar? other = some word') :
    word = word' ↔ fullName name = fullName other := by
  constructor
  · rintro rfl
    rw [← fullNameOf_word known, fullNameOf_word known']
  · intro same
    rw [← scalar?_fullName, same, scalar?_fullName, known'] at known
    exact (Option.some.inj known).symm

end Tables

/-- The containers and the scalar can be told from the text, since the text of a scalar has no bracket. -/
theorem chainText_inj {levels levels' : List Level} {word word' : String} (plain : '<' ∉ word.toList)
    (plain' : '<' ∉ word'.toList) (same : chainText levels word = chainText levels' word') :
    levels = levels' ∧ word = word' := by
  have nested : ∀ {level : Level} {rest : List Level} {inner : String}, '<' ∈ (chainText (level :: rest) inner).toList := by
    intro level rest inner
    simp [chainText_cons]
  induction levels generalizing levels' with
  | nil =>
    cases levels' with
    | nil => exact ⟨rfl, by simpa only [chainText_nil] using same⟩
    | cons level' levels' =>
      rw [chainText_nil] at same
      exact absurd (same ▸ nested) plain
  | cons level levels ih =>
    cases levels' with
    | nil =>
      rw [chainText_nil] at same
      exact absurd (same ▸ nested) plain'
    | cons level' levels' =>
      rw [chainText_cons, chainText_cons] at same
      obtain ⟨rfl, inner⟩ := Level.enclosed_inj same
      obtain ⟨rfl, rfl⟩ := ih inner
      exact ⟨rfl, rfl⟩

/-- What is written out is described, level by level. -/
theorem exists_describes (tree : Tree) (text : String) (written : code tree = .ok text) :
    ∃ levels name word, Describes tree levels name ∧ scalar? name = some word ∧ text = chainText levels word := by
  rw [code] at written
  obtain ⟨fields, read, written⟩ := except_bind_ok.mp written
  obtain ⟨_, allowed, written⟩ := except_bind_ok.mp written
  obtain ⟨base, spelled, written⟩ := except_bind_ok.mp written
  obtain ⟨listed, distinct, _⟩ := Fields.ofTree_ok.mp read
  obtain ⟨content, present, named⟩ := Fields.leaf_ok.mp spelled
  have held := Fields.holds_of_lists (by decide) listed distinct allowed
  rw [Fields.among_cons, Fields.among_cons, Fields.among_nil, present, Fields.look] at held
  split at written
  next container element known found =>
    obtain ⟨inner, inside, written⟩ := except_bind_ok.mp written
    cases written
    obtain ⟨level, rfl, rfl⟩ := container?_eq_some.mp known
    obtain ⟨levels, name, word, describes, known, rfl⟩ := exists_describes element.content inner inside
    rw [found] at held
    exact ⟨level :: levels, name, word, .container held named describes, known, (chainText_cons ..).symm⟩
  next => cases written
  next =>
    split at written
    next word known found =>
      cases written
      rw [found] at held
      refine ⟨[], base, text, .scalar held named ?_, known, (chainText_nil _).symm⟩
      rw [known, Option.isSome_some]
    next => cases written
    next => cases written
termination_by sizeOf tree
decreasing_by exact Node.smaller _

theorem Describes.code {tree : Tree} {levels : List Level} {name word : String} (describes : Describes tree levels name)
    (known : scalar? name = some word) : DeclaredType.code tree = .ok (chainText levels word) := by
  induction describes with
  | @scalar tree base name held named _ =>
    obtain ⟨fields, read, _, look, allow⟩ := held.ofTree "type"
    have spelled : fields.leaf "base_type" = .ok name := Fields.leaf_ok.mpr ⟨base, look _, named⟩
    have absent : fields.get? "type" = none := Option.map_eq_none_iff.mp (look "type")
    rw [DeclaredType.code]
    refine except_bind_ok.mpr ⟨fields, read, except_bind_ok.mpr ⟨(), (allow _).mpr (by simp), ?_⟩⟩
    refine except_bind_ok.mpr ⟨name, spelled, ?_⟩
    rw [container?_of_scalar known, absent, known, chainText_nil]
    rfl
  | @container tree base inner level levels name held named _ ih =>
    obtain ⟨fields, read, _, look, allow⟩ := held.ofTree "type"
    have spelled : fields.leaf "base_type" = .ok level.name := Fields.leaf_ok.mpr ⟨base, look _, named⟩
    obtain ⟨element, found, rfl⟩ := Option.map_eq_some_iff.mp (look "type")
    have contained := container?_eq_some.mpr ⟨level, rfl, rfl⟩
    rw [DeclaredType.code]
    refine except_bind_ok.mpr ⟨fields, read, except_bind_ok.mpr ⟨(), (allow _).mpr (by simp), ?_⟩⟩
    refine except_bind_ok.mpr ⟨level.name, spelled, ?_⟩
    rw [contained, found]
    refine except_bind_ok.mpr ⟨_, ih known, ?_⟩
    rw [chainText_cons]
    rfl

theorem Describes.known {tree : Tree} {levels : List Level} {name : String} (describes : Describes tree levels name) :
    ∃ word, scalar? name = some word := by
  induction describes with
  | scalar _ _ known => exact Option.isSome_iff_exists.mp known
  | container _ _ _ ih => exact ih

/-- A tree describes one chain only. -/
theorem Describes.unique {tree : Tree} {levels levels' : List Level} {name name' : String}
    (first : Describes tree levels name) (second : Describes tree levels' name') : levels = levels' ∧ name = name' := by
  induction first generalizing levels' name' with
  | @scalar tree base name held named known =>
    cases second with
    | @scalar _ base' _ held' named' =>
      cases held.lookup_unique held' "base_type"
      cases named.symm.trans named'
      exact ⟨rfl, rfl⟩
    | container held' => cases held.lookup_unique held' "type"
  | @container tree base inner level levels name held named _ ih =>
    cases second with
    | scalar held' => cases held.lookup_unique held' "type"
    | @container _ base' inner' level' levels' _ held' named' element =>
      cases held.lookup_unique held' "base_type"
      cases held.lookup_unique held' "type"
      obtain ⟨rfl, rfl⟩ := ih element
      refine ⟨congrArg (· :: levels) ?_, rfl⟩
      exact Level.name_injective (Option.some.inj (named.symm.trans named'))

/-- Declared types are written out exactly and faithfully. A type tree is accepted if and only if it describes
a chain of containers around a known scalar, and its text gives the containers in their order, the scalar's
type and as many closing brackets as there are containers. Two accepted trees have the same text exactly if
they describe the same chain, where Int stands for Int64 and Float for Float64. -/
theorem code_faithful :
    (∀ tree text, code tree = .ok text ↔ ∃ levels name word, Describes tree levels name ∧ scalar? name = some word ∧
      text = String.join (levels.map fun level => level.word ++ "<") ++ word ++
        String.ofList (List.replicate levels.length '>')) ∧
    (∀ tree levels name levels' name', Describes tree levels name → Describes tree levels' name' →
      levels = levels' ∧ name = name') ∧
    ∀ one other levels name levels' name', Describes one levels name → Describes other levels' name' →
      ((∃ text, code one = .ok text ∧ code other = .ok text) ↔ levels = levels' ∧ fullName name = fullName name') := by
  refine ⟨fun tree text => ⟨exists_describes tree text, ?_⟩, fun _ _ _ _ _ => Describes.unique, ?_⟩
  · rintro ⟨levels, name, word, describes, known, rfl⟩
    exact describes.code known
  · intro one other levels name levels' name' describes describes'
    obtain ⟨word, known⟩ := describes.known
    obtain ⟨word', known'⟩ := describes'.known
    rw [describes.code known, describes'.code known', ← scalar?_eq_iff known known']
    constructor
    · rintro ⟨text, first, second⟩
      cases first
      exact chainText_inj (scalar?_word known) (scalar?_word known') (Except.ok.inj second).symm
    · rintro ⟨rfl, rfl⟩
      exact ⟨_, rfl, rfl⟩

/-- A vector of arrays of a scalar, with the fields of the inner type in either order. -/
private def nestedType (scalar : String) (order : List (String × Tree) → List (String × Tree)) : Tree :=
  .ofEntries [("base_type", .text "Vector"),
    ("type", .ofEntries (order [("base_type", .text "Array"), ("type", .ofEntries [("base_type", .text scalar)])]))]

private theorem nestedType_describes {scalar : String} (known : (scalar? scalar).isSome = true)
    {order : List (String × Tree) → List (String × Tree)} (reorders : ∀ entries, (order entries).Perm entries) :
    Describes (nestedType scalar order) [.vector, .array] scalar := by
  refine .container (Tree.holds_ofEntries (by simp)) rfl (.container ⟨by simp, _, .entries _, reorders _⟩ rfl ?_)
  exact .scalar (Tree.holds_ofEntries (by simp)) rfl known

theorem nested_types_alike :
    code (nestedType "Int" id) = .ok "SnVector<SnArray<i64>>" ∧
    ∃ text, code (nestedType "Int" id) = .ok text ∧ code (nestedType "Int64" List.reverse) = .ok text := by
  have one : Describes (nestedType "Int" id) [.vector, .array] "Int" :=
    nestedType_describes rfl fun _ => .refl _
  have other : Describes (nestedType "Int64" List.reverse) [.vector, .array] "Int64" :=
    nestedType_describes rfl List.reverse_perm
  obtain ⟨written, _, alike⟩ := code_faithful
  refine ⟨(written _ _).mpr ⟨_, _, "i64", one, rfl, rfl⟩, ?_⟩
  exact (alike _ _ _ _ _ _ one other).mpr ⟨rfl, rfl⟩

end DeclaredType
end Lowering
