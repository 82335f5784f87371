import Lowering.Proofs.ExprNodes

/-! The grammar of expressions. A rule says for each form of expression which nodes it is written with,
and nothing is an expression that no rule makes one. -/

namespace Lowering

/-- Text that is not blank stands for itself, and a node with the tag of a kind for text of that kind. -/
inductive Literal.Written : Tree → Literal → Prop where
  | verbatim {tree text} (held : tree.leaf? = some text) (visible : text.toList.all isBlank = false) :
    Written tree ⟨.verbatim, text⟩
  | kinded {tree tag inner kind text} (listed : tree.Lists [(tag, inner)])
    (known : LiteralKind.ofTag? tag = some kind) (held : inner.leaf? = some text) : Written tree ⟨kind, text⟩

/-- The accessor that a field names, or looking where the field is left out. -/
inductive Accessor.Written : Option Tree → Accessor → Prop where
  | absent : Written none .look
  | named {tree token accessor} (held : tree.leaf? = some token) (known : ofToken? token = some accessor) :
    Written (some tree) accessor

/-- A field that may be left out. -/
def Tree.ifGiven (tag : String) (content : Option Tree) : List (String × Tree) :=
  content.toList.map (tag, ·)

@[simp] theorem Tree.mem_ifGiven {tag : String} {content : Option Tree} {entry : String × Tree} :
    entry ∈ ifGiven tag content ↔ entry.1 = tag ∧ content = some entry.2 := by
  obtain ⟨key, held⟩ := entry
  cases content with
  | none => simp [ifGiven]
  | some => simp [ifGiven, eq_comm]

namespace Expr

open Lowering.Tree (ifGiven)

mutual

/-- The nodes are those of an expression that may stand at a level. -/
inductive Derives : Level → List (String × Tree) → Expr → Prop where
  | literal {content value} (written : Literal.Written content value) :
    Derives .base [("literal", content)] (.literal value)
  | collection {content inner entries items} (alone : content.Lists [("collection_literal", inner)])
    (listed : inner.Lists entries) (each : Items entries items) :
    Derives .base [("literal", content)] (.collection items)
  | identifier {content name} (named : content.leaf? = some name) :
    Derives .base [("identifier", content)] (.identifier name)
  | call {content named name parameters arguments}
    (held : content.Holds (("identifier", named) :: ifGiven "function_call_parameters" parameters))
    (spelled : named.leaf? = some name) (each : Arguments parameters arguments) :
    Derives .base [("function_call", content)] (.call name arguments)
  | paren {content entries inner} (listed : content.Lists entries) (enclosed : Derives .expression entries inner) :
    Derives .base [("expression", content)] (.paren inner)
  | ofBase {content entries expr} (listed : content.Lists entries) (base : Derives .base entries expr) :
    Derives .term [("base_expression", content)] expr
  | field {entries base content named name} (target : Derives .term entries base)
    (held : content.Holds [("identifier", named)]) (spelled : named.leaf? = some name) :
    Derives .term (entries ++ [("field_access", content)]) (.field base name)
  | method {entries receiver content named called symbol parameters arguments} (target : Derives .term entries receiver)
    (held : content.Holds (("identifier", named) :: ifGiven "mutate_method_symbol" symbol ++
      ifGiven "function_call_parameters" parameters))
    (spelled : named.leaf? = some called.name)
    (each : Arguments parameters (arguments.map (Accessor.look, ·))) :
    Derives .term (entries ++ [("method_call", content)]) (.method receiver called symbol.isSome arguments)
  | index {entries base content inner inside position} (target : Derives .term entries base)
    (held : content.Holds [("expression", inner)]) (listed : inner.Lists inside)
    (within : Derives .expression inside position) :
    Derives .term (entries ++ [("index_call", content)]) (.index base position)
  | ofTerm {content entries expr} (listed : content.Lists entries) (term : Derives .term entries expr) :
    Derives .operand [("term", content)] expr
  | unary {content operator entries operand} (spelled : content.leaf? = some operator.token)
    (behind : Derives .operand entries operand) :
    Derives .operand (("unary_op", content) :: entries) (.unary operator operand)
  | chain {entries first others rest} (begins : Derives .operand entries first) (continues : Rest others rest) :
    Derives .expression (entries ++ others) (joined first rest)

/-- Further operands of a chain, each behind its operator. -/
inductive Rest : List (String × Tree) → List (BinaryOp × Expr) → Prop where
  | done : Rest [] []
  | next {content operator entries operand others rest} (spelled : content.leaf? = some operator.token)
    (behind : Derives .operand entries operand) (continues : Rest others rest) :
    Rest (("infix_op", content) :: entries ++ others) ((operator, operand) :: rest)

/-- The arguments of a call, whose list may be left out where there are none. -/
inductive Arguments : Option Tree → List (Accessor × Expr) → Prop where
  | absent : Arguments none []
  | listed {tree entries arguments} (listed : tree.Lists entries) (each : EachArgument entries arguments) :
    Arguments (some tree) arguments

inductive EachArgument : List (String × Tree) → List (Accessor × Expr) → Prop where
  | noArgument : EachArgument [] []
  | argument {content given accessor inner inside value others arguments}
    (held : content.Holds (ifGiven "accessor" given ++ [("expression", inner)]))
    (written : Accessor.Written given accessor) (listed : inner.Lists inside)
    (derives : Derives .expression inside value) (rest : EachArgument others arguments) :
    EachArgument (("function_call_parameter", content) :: others) ((accessor, value) :: arguments)

inductive Items : List (String × Tree) → List Expr → Prop where
  | noItem : Items [] []
  | item {content entries item others items} (listed : content.Lists entries)
    (derives : Derives .expression entries item) (rest : Items others items) :
    Items (("expression", content) :: others) (item :: items)

end

/-- The tree is the content of a node that holds the expression at a level. -/
def Reads (level : Level) (tree : Tree) (expr : Expr) : Prop :=
  ∃ entries, tree.Lists entries ∧ Derives level entries expr

/-- An expression that stands by itself is no chain. -/
theorem Derives.not_chain {level : Level} {entries : List (String × Tree)} {expr : Expr}
    (derives : Derives level entries expr) (single : level ≠ .expression) : expr.isChain = false := by
  induction derives using Derives.rec (motive_2 := fun _ _ _ => True) (motive_3 := fun _ _ _ => True)
      (motive_4 := fun _ _ _ => True) (motive_5 := fun _ _ _ => True) with
  | ofBase _ _ ih => exact ih nofun
  | ofTerm _ _ ih => exact ih nofun
  | chain => exact absurd rfl single
  | literal | collection | identifier | call | paren | field | method | index | unary => rfl
  | done | next | absent | listed | noArgument | argument | noItem | item => trivial

end Expr
end Lowering
