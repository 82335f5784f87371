/-! The operators of the source language with their tokens and their Rust spellings. Each kind
of operator has its own table because the same token may be read differently in each place. -/

namespace Lowering

inductive UnaryOp where
  | negate
  | not
deriving DecidableEq, Repr

namespace UnaryOp

def ofToken? : String → Option UnaryOp
  | "-" => some negate
  | "not" => some not
  | _ => none

def symbol : UnaryOp → String
  | negate => "-"
  | not => "!"

end UnaryOp

inductive BinaryOp where
  | add
  | sub
  | mul
  | div
  | rem
  | eq
  | ne
  | lt
  | le
  | gt
  | ge
  | and
  | or
deriving DecidableEq, Repr

namespace BinaryOp

def ofToken? : String → Option BinaryOp
  | "+" => some add
  | "-" => some sub
  | "*" => some mul
  | "/" => some div
  | "%" => some rem
  | "==" => some eq
  | "!=" => some ne
  | "<" => some lt
  | "<=" => some le
  | ">" => some gt
  | ">=" => some ge
  | "and" => some and
  | "or" => some or
  | _ => none

def symbol : BinaryOp → String
  | add => "+"
  | sub => "-"
  | mul => "*"
  | div => "/"
  | rem => "%"
  | eq => "=="
  | ne => "!="
  | lt => "<"
  | le => "<="
  | gt => ">"
  | ge => ">="
  | and => "&&"
  | or => "||"

end BinaryOp

/-- What a set statement does with the old value of its target. -/
inductive AssignOp where
  | assign
  | add
  | sub
  | mul
  | div
  | rem
deriving DecidableEq, Repr

namespace AssignOp

def ofToken? : String → Option AssignOp
  | "=" => some assign
  | "+=" => some add
  | "-=" => some sub
  | "*=" => some mul
  | "/=" => some div
  | "%=" => some rem
  | _ => none

def symbol : AssignOp → String
  | assign => "="
  | add => "+="
  | sub => "-="
  | mul => "*="
  | div => "/="
  | rem => "%="

end AssignOp
end Lowering
