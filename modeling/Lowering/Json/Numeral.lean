import Lowering.Decimal.Numeral
import Lowering.Tree.Basic

/-! JSON numbers. A number without a point or an exponent is whole if a 64-bit word holds it;
every other is a float. The float is found from as many leading digits as a word holds: they are
rounded once as a whole number and once more by the power of ten that scales them. -/

namespace Lowering.Json

/-- Leading digits of a number and the power of ten that scales them. -/
structure Leading where
  count : Nat
  exponent : Int
deriving DecidableEq, Repr

namespace Leading

/-- Whether one more digit can be counted in a 64-bit word. -/
def holds (leading : Leading) (digit : Nat) : Bool :=
  leading.count * 10 + digit < UInt64.size

/-- Counts the digits before the point. From the first that no longer fits on, each digit only
scales those before it. -/
def whole : Leading → List Nat → Leading
  | leading, [] => leading
  | leading, digit :: rest =>
    if leading.holds digit then whole ⟨leading.count * 10 + digit, leading.exponent⟩ rest
    else ⟨leading.count, leading.exponent + (rest.length + 1)⟩

/-- Counts the digits behind the point, leaving out all from the first that does not fit. -/
def places : Leading → List Nat → Leading
  | leading, [] => leading
  | leading, digit :: rest =>
    if leading.holds digit then places ⟨leading.count * 10 + digit, leading.exponent - 1⟩ rest
    else leading

def power (exponent : Nat) : Float :=
  Float.ofScientific 1 false exponent

/-- The float that the digits and their scale stand for, if one is large enough. Powers beyond
the largest float's are taken in two steps, after which nothing is left of a smaller number. -/
def toFloat? (leading : Leading) : Option Float :=
  let value := Float.ofNat leading.count
  if leading.count = 0 then some 0.0
  else if 308 < leading.exponent then none
  else if 0 ≤ leading.exponent then
    let scaled := value * power leading.exponent.toNat
    if scaled.isInf then none else some scaled
  else
    let down := (-leading.exponent).toNat
    if down ≤ 308 then some (value / power down)
    else if down ≤ 616 then some (value / power 308 / power (down - 308))
    else some 0.0

end Leading

def digitValues (digits : List Char) : List Nat :=
  digits.map fun digit => digit.toNat - '0'.toNat

/-- The part of a number from its exponent mark on: nothing, or the mark, a sign and digits to
the end. -/
def exponent? : List Char → Option (Option Int)
  | [] => some none
  | text => (Numeral.exponent? text).map some

/-- A whole number that a signed or an unsigned 64-bit word holds. A negative zero is none. -/
def word? (negative : Bool) (count : Nat) : Option Int :=
  if negative then if 0 < count ∧ 2 * count ≤ UInt64.size then some (-count) else none
  else if count < UInt64.size then some count else none

/-- The float of an unsigned number. An exponent too large to be counted in 31 bits makes the
number too large, or zero if it is negative or scales zero. -/
def float? (whole places : List Char) (exponent : Int) : Option Float :=
  let leading := ((Leading.mk 0 0).whole (digitValues whole)).places (digitValues places)
  if 0x8000_0000 ≤ exponent.natAbs then
    if 0 < exponent ∧ leading.count ≠ 0 then none else some 0.0
  else Leading.toFloat? ⟨leading.count, leading.exponent + exponent⟩

/-- Reads a number that fills the text: no needless zero in front, a digit on either side of a
point, and at least one in an exponent. -/
def number? (text : List Char) : Option Number := do
  let (negative, text) := match text with
    | '-' :: rest => (true, rest)
    | _ => (false, text)
  let whole := text.takeWhile Char.isDigit
  let rest := text.dropWhile Char.isDigit
  if whole = [] ∨ (whole.head? = some '0' ∧ 1 < whole.length) then none
  else
    let (places, rest) := match rest with
      | '.' :: behind => (some (behind.takeWhile Char.isDigit), behind.dropWhile Char.isDigit)
      | _ => (none, rest)
    if places = some [] then none
    else
      let exponent ← exponent? rest
      match places, exponent, word? negative (Numeral.count whole) with
      | none, none, some word => return .integer word
      | _, _, _ =>
        let value ← float? whole (places.getD []) (exponent.getD 0)
        return .float (if negative then -value else value)

end Lowering.Json
