/-! Decimal numbers, written either place by place or with one digit before the point and
a power of ten behind. A number's magnitude, the power of ten of its leading digit, is
what chooses between the two. -/

namespace Lowering

/-- The number `significand * 10 ^ exponent`. -/
structure Decimal where
  significand : Nat
  exponent : Int
deriving DecidableEq, Repr, Inhabited

namespace Decimal

/-- The digits of the significand, most significant first. -/
def digits (number : Decimal) : List Char :=
  Nat.toDigits 10 number.significand

/-- The power of ten that the leading digit counts. -/
def magnitude (number : Decimal) : Int :=
  number.exponent + number.digits.length - 1

def zeros (count : Nat) : List Char :=
  List.replicate count '0'

/-- Every place written out. A point appears only where a fraction follows it. -/
def positional (number : Decimal) : String :=
  if 0 ≤ number.exponent then
    String.ofList (number.digits ++ zeros number.exponent.toNat)
  else
    let places := (-number.exponent).toNat
    let padded := zeros (places + 1 - number.digits.length) ++ number.digits
    let whole := padded.length - places
    String.ofList (padded.take whole ++ '.' :: padded.drop whole)

/-- One digit before the point, the others behind it, and the magnitude with its sign. -/
def scientific (number : Decimal) : String :=
  let sign := if number.magnitude < 0 then "-" else "+"
  let power := "e" ++ sign ++ Nat.repr number.magnitude.natAbs
  match number.digits with
  | [] => power
  | [digit] => String.ofList [digit] ++ power
  | digit :: rest => String.ofList (digit :: '.' :: rest) ++ power

end Decimal
end Lowering
