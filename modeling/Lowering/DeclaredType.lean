import Lowering.Tree.Fields

/-! Declared types. A type tree names a scalar, or a container together with the type of its
elements; it is kept as it was read and only rendered when a signature or an annotation is
written. -/

namespace Lowering.DeclaredType

def scalar? : String → Option String
  | "Int" | "Int64" => some "i64"
  | "Int32" => some "i32"
  | "Int16" => some "i16"
  | "Int8" => some "i8"
  | "Uint64" => some "u64"
  | "Uint32" => some "u32"
  | "Uint16" => some "u16"
  | "Uint8" => some "u8"
  | "Float" | "Float64" => some "f64"
  | "Float32" => some "f32"
  | "Bool" => some "bool"
  | "Char" => some "char"
  | "String" => some "SnString"
  | _ => none

def container? : String → Option String
  | "Vector" => some "SnVector"
  | "Array" => some "SnArray"
  | _ => none

/-- The Rust type that a type tree declares. -/
def code (tree : Tree) : Except Error String := do
  let fields ← Fields.ofTree tree "type"
  fields.allow ["base_type", "type"]
  let base ← fields.leaf "base_type"
  match container? base, fields.get? "type" with
  | some container, some element => return container ++ "<" ++ (← code element.content) ++ ">"
  | some _, none => throw (.mismatch (.withoutTypeParameter base))
  | none, element =>
    match scalar? base, element with
    | some scalar, none => return scalar
    | some _, some _ => throw (.mismatch (.needlessTypeParameter base))
    | none, _ => throw (.mismatch (.unknownType base))
termination_by sizeOf tree
decreasing_by exact element.smaller

end Lowering.DeclaredType
