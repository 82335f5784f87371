import Lowering.Decimal.Basic

/-! Floating-point numerals as text: an optional sign, then the words for infinity and for no
number in any case, or digits with an optional point and an optional exponent, of which at
least one digit stands before the exponent. -/

namespace Lowering

/-- What a numeral's text stands for, before any rounding. -/
inductive Numeral where
  | infinite (negative : Bool)
  | notANumber
  | finite (negative : Bool) (value : Decimal)
deriving DecidableEq, Repr

namespace Numeral

/-- The number that a run of digits counts. -/
def count (digits : List Char) : Nat :=
  digits.foldl (fun total digit => 10 * total + (digit.toNat - '0'.toNat)) 0

def signed : List Char → Bool × List Char
  | '+' :: rest => (false, rest)
  | '-' :: rest => (true, rest)
  | text => (false, text)

/-- The exponent at the end of a numeral: nothing, or a mark, a sign and digits to the end. -/
def exponent? : List Char → Option Int
  | [] => some 0
  | mark :: rest =>
    if mark = 'e' ∨ mark = 'E' then
      let (negative, digits) := signed rest
      if digits ≠ [] ∧ digits.all Char.isDigit then
        some (if negative then -(count digits : Int) else count digits)
      else none
    else none

/-- Digits, a point and digits, an exponent. -/
def decimal? (text : List Char) : Option Decimal :=
  let whole := text.takeWhile Char.isDigit
  let rest := text.dropWhile Char.isDigit
  let (places, rest) := match rest with
    | '.' :: behind => (behind.takeWhile Char.isDigit, behind.dropWhile Char.isDigit)
    | _ => ([], rest)
  if whole = [] ∧ places = [] then none
  else (exponent? rest).map fun exponent =>
    ⟨count (whole ++ places), exponent - places.length⟩

/-- Reads a numeral that fills the text. -/
def ofChars? (text : List Char) : Option Numeral :=
  let (negative, rest) := signed text
  let word := String.ofList (rest.map Char.toLower)
  if word = "inf" ∨ word = "infinity" then some (.infinite negative)
  else if word = "nan" then some .notANumber
  else (decimal? rest).map (.finite negative)

/-- The nearest float. Beyond 400 places to either side the answer is infinity or zero, so
larger powers of ten are never built. -/
def toFloat : Numeral → Float
  | .infinite negative => if negative then -(1.0 / 0.0) else 1.0 / 0.0
  | .notANumber => 0.0 / 0.0
  | .finite negative value =>
    let magnitude :=
      if value.significand = 0 ∨ value.magnitude < -400 then 0.0
      else if 400 < value.magnitude then 1.0 / 0.0
      else Float.ofScientific value.significand (value.exponent < 0) value.exponent.natAbs
    if negative then -magnitude else magnitude

end Numeral
end Lowering
