import Lowering.Json.Numeral

/-! The tokens of JSON text. The text is strict: only four characters are blank, no control
character stands raw in a string, and half of a surrogate pair alone is no character. -/

namespace Lowering.Json

inductive Token where
  | openSequence
  | closeSequence
  | openMapping
  | closeMapping
  | comma
  | colon
  | null
  | boolean (value : Bool)
  | number (value : Number)
  | text (value : String)
deriving DecidableEq, Repr

def isBlank (char : Char) : Bool :=
  char == ' ' || char == '\t' || char == '\n' || char == '\r'

def hexDigit? (char : Char) : Option Nat :=
  if char.isDigit then some (char.toNat - '0'.toNat)
  else if 'a' ≤ char ∧ char ≤ 'f' then some (char.toNat - 'a'.toNat + 10)
  else if 'A' ≤ char ∧ char ≤ 'F' then some (char.toNat - 'A'.toNat + 10)
  else none

/-- The number that four hexadecimal digits write. -/
def unit? (first second third fourth : Char) : Option Nat := do
  let first ← hexDigit? first
  let second ← hexDigit? second
  let third ← hexDigit? third
  let fourth ← hexDigit? fourth
  return ((first * 16 + second) * 16 + third) * 16 + fourth

def isHigh (unit : Nat) : Bool :=
  0xd800 ≤ unit && unit < 0xdc00

def isLow (unit : Nat) : Bool :=
  0xdc00 ≤ unit && unit < 0xe000

/-- Something read from the front of a text, and the rest, which is shorter than the text. -/
structure Read (α : Type) (text : List Char) where
  value : α
  rest : List Char
  shorter : rest.length < text.length

/-- Puts a character, and what wrote it, in front of the string read from the rest. -/
def Read.before {rest : List Char} (char : Char) (read : Read (List Char) rest)
    (held : rest.length < text.length) : Read (List Char) text :=
  ⟨char :: read.value, read.rest, Nat.lt_trans read.shorter held⟩

/-- The character that a mark behind a backslash stands for. -/
def escaped? : Char → Option Char
  | '"' => some '"'
  | '\\' => some '\\'
  | '/' => some '/'
  | 'b' => some (Char.ofNat 0x08)
  | 'f' => some (Char.ofNat 0x0c)
  | 'n' => some '\n'
  | 'r' => some '\r'
  | 't' => some '\t'
  | _ => none

/-- The characters of a string up to its closing quote, which belongs to what is read. A
character beyond the first plane is escaped as a high surrogate and a low one; the high one is
kept until the low one follows. -/
def string? (high : Option Nat) : (text : List Char) → Option (Read (List Char) text)
  | [] => none
  | '\\' :: 'u' :: a :: b :: c :: d :: rest => do
    let unit ← unit? a b c d
    match high with
    | some high =>
      if isLow unit then
        let char := Char.ofNat (0x10000 + (high - 0xd800) * 0x400 + (unit - 0xdc00))
        return (← string? none rest).before char (by simp +arith)
      else none
    | none =>
      if isHigh unit then
        let read ← string? (some unit) rest
        return ⟨read.value, read.rest, Nat.lt_trans read.shorter (by simp +arith)⟩
      else if isLow unit then none
      else return (← string? none rest).before (Char.ofNat unit) (by simp +arith)
  | '\\' :: mark :: rest => do
    if high.isSome then none
    return (← string? none rest).before (← escaped? mark) (by simp +arith)
  | char :: rest => do
    if high.isSome then none
    if char = '"' then return ⟨[], rest, by simp⟩
    if char < ' ' ∨ char = '\\' then none
    return (← string? none rest).before char (by simp)

/-- Characters that occur in numbers. -/
def isNumeric (char : Char) : Bool :=
  char.isDigit || char == '-' || char == '+' || char == '.' || char == 'e' || char == 'E'

/-- The token at the front of a text that does not begin with a blank. A number reaches as far
as characters of numbers do, since none of them may follow one. -/
def token? : (text : List Char) → Option (Read Token text)
  | '[' :: rest => some ⟨.openSequence, rest, by simp⟩
  | ']' :: rest => some ⟨.closeSequence, rest, by simp⟩
  | '\x7b' :: rest => some ⟨.openMapping, rest, by simp⟩
  | '\x7d' :: rest => some ⟨.closeMapping, rest, by simp⟩
  | ',' :: rest => some ⟨.comma, rest, by simp⟩
  | ':' :: rest => some ⟨.colon, rest, by simp⟩
  | 'n' :: 'u' :: 'l' :: 'l' :: rest => some ⟨.null, rest, by simp +arith⟩
  | 't' :: 'r' :: 'u' :: 'e' :: rest => some ⟨.boolean true, rest, by simp +arith⟩
  | 'f' :: 'a' :: 'l' :: 's' :: 'e' :: rest => some ⟨.boolean false, rest, by simp +arith⟩
  | '"' :: rest => do
    let read ← string? none rest
    return ⟨.text (String.ofList read.value), read.rest, Nat.lt_succ_of_lt read.shorter⟩
  | char :: rest => do
    if !char.isDigit && char != '-' then none
    let number ← number? (char :: rest.takeWhile isNumeric)
    return ⟨.number number, rest.dropWhile isNumeric,
      Nat.lt_succ_of_le (List.dropWhile_sublist isNumeric).length_le⟩
  | [] => none

/-- All tokens of a text, with blanks anywhere between them. -/
def tokens? (text : List Char) : Option (List Token) :=
  match text with
  | [] => some []
  | char :: rest =>
    if isBlank char then tokens? rest
    else do
      let read ← token? (char :: rest)
      return read.value :: (← tokens? read.rest)
termination_by text.length
decreasing_by
  · simp
  · exact read.shorter

end Lowering.Json
