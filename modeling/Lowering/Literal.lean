import Lowering.Error
import Lowering.Decimal.Numeral

/-! Literals: their text as the source writes it, and a kind that says which text is acceptable
and how it is carried over. -/

namespace Lowering

inductive LiteralKind where
  /-- Text without a kind, carried over exactly as given. -/
  | verbatim
  | int
  | float
  | bool
  | str
  | char
deriving DecidableEq, Repr

namespace LiteralKind

/-- The kinds that a tree can name; text without a kind has no tag. -/
def ofTag? : String → Option LiteralKind
  | "int_literal" => some int
  | "float_literal" => some float
  | "bool_literal" => some bool
  | "string_literal" => some str
  | "char_literal" => some char
  | _ => none

end LiteralKind

structure Literal where
  kind : LiteralKind
  text : String
deriving DecidableEq, Repr

/-- The characters with the Unicode property of being white space. -/
def isBlank (char : Char) : Bool :=
  let code := char.toNat
  (9 ≤ code && code ≤ 13) || (0x2000 ≤ code && code ≤ 0x200a)
    || [0x20, 0x85, 0xa0, 0x1680, 0x2028, 0x2029, 0x202f, 0x205f, 0x3000].contains code

/-- Lower case for ASCII letters, all else unchanged. -/
def lowerAscii (text : String) : String :=
  String.ofList (text.toList.map Char.toLower)

/-- The text begins and ends with the mark and has at least the given number of characters. -/
def enclosed (mark : Char) (least : Nat) (text : String) : Bool :=
  decide (least ≤ text.length) && text.toList.head? == some mark && text.toList.getLast? == some mark

namespace Literal

/-- The literal reads as true whatever the case of its letters, written with its kind or without. -/
def isTrue (literal : Literal) : Bool :=
  (literal.kind == .verbatim || literal.kind == .bool) && lowerAscii literal.text == "true"

/-- The literal as Rust text. A float without a point or an exponent gains a fraction, so that
it is not taken for an integer; text becomes a text container. -/
def code (literal : Literal) : Except Error String :=
  let text := literal.text
  let chars := text.toList
  let invalid (noun : String) : Except Error String := .error (.mismatch (.invalidLiteral noun text))
  match literal.kind with
  | .verbatim => .ok text
  | .int =>
    if chars ≠ [] ∧ chars.all fun char => char.isDigit || char == '_' then .ok text
    else invalid "integer"
  | .float =>
    if (Numeral.ofChars? (chars.filter (· != '_'))).isNone then invalid "float"
    else if chars.any fun char => char == '.' || char == 'e' || char == 'E' then .ok text
    else .ok (text ++ ".0")
  | .bool =>
    let lower := lowerAscii text
    if lower = "true" ∨ lower = "false" then .ok lower else invalid "boolean"
  | .str =>
    if enclosed '"' 2 text then .ok ("SnString::from(" ++ text ++ ")") else invalid "string"
  | .char => if enclosed '\'' 3 text then .ok text else invalid "character"

end Literal
end Lowering
