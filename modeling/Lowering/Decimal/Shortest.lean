import Lowering.Decimal.Basic

/-! The shortest decimal that reads back as a given binary float. The floats that a reader
rounds to are those of an interval around the exact value; on each decimal grid only the two
neighbours of that value can be the nearest point inside it, so grids are tried from the
coarsest down and the first with a point inside wins. All arithmetic is on whole numbers. -/

namespace Lowering

/-- The positive number `mantissa * 2 ^ exponent`, as a double precision float holds it. -/
structure Binary where
  mantissa : Nat
  exponent : Int
deriving DecidableEq, Repr

namespace Binary

/-- The leading bit of a full mantissa, `2 ^ 52`. Floats do not store it. -/
def leadingBit : Nat :=
  0x10_0000_0000_0000

/-- The absolute value of a finite float, read off its bits. A zero exponent field means that
the leading bit is absent. -/
def ofFloat (value : Float) : Binary :=
  let bits := value.toBits.toNat
  let fraction := bits % leadingBit
  let field : Nat := bits / leadingBit % 2048
  if field = 0 then ⟨fraction, -1074⟩ else ⟨leadingBit + fraction, (field : Int) - 1075⟩

/-- At a power of two the float below is half as far away as the float above. -/
def narrowBelow (number : Binary) : Bool :=
  number.mantissa == leadingBit && decide (-1074 < number.exponent)

/-- Which of two equally near points of a grid is taken. -/
inductive Tie where
  | even
  | upper
deriving DecidableEq, Repr

/-- The nearest point of the grid of spacing `10 ^ power` among those that read back as this
number, counted in steps of the grid. Everything is scaled by four so that the middles
between neighbouring floats are whole; an end of the interval belongs to it when the mantissa
is even, since readers round a middle to the even mantissa. -/
def nearest? (number : Binary) (tie : Tie) (power : Int) : Option Nat :=
  let shift := number.exponent - 2
  let unit := Nat.pow 2 shift.toNat * Nat.pow 10 (-power).toNat
  let step := Nat.pow 2 (-shift).toNat * Nat.pow 10 power.toNat
  let exact := 4 * number.mantissa * unit
  let lower := exact - (if number.narrowBelow then 1 else 2) * unit
  let upper := exact + 2 * unit
  let closed := number.mantissa % 2 = 0
  let below := exact / step
  let above := below + 1
  let belowInside := if closed then decide (lower ≤ below * step) else decide (lower < below * step)
  let aboveInside := if closed then decide (above * step ≤ upper) else decide (above * step < upper)
  let down := exact - below * step
  let up := above * step - exact
  match belowInside, aboveInside with
  | true, true =>
    if down < up then some below
    else if up < down then some above
    else match tie with
      | .even => some (if below % 2 = 0 then below else above)
      | .upper => some above
  | true, false => some below
  | false, true => some above
  | false, false => none

/-- The number written exactly: a power of two below one is a power of five over a power of
ten. -/
def exactly (number : Binary) : Decimal :=
  if 0 ≤ number.exponent then ⟨number.mantissa * Nat.pow 2 number.exponent.toNat, 0⟩
  else ⟨number.mantissa * Nat.pow 5 (-number.exponent).toNat, number.exponent⟩

/-- Tries the grid of `10 ^ power` and then the finer ones. -/
def search (number : Binary) (tie : Tie) : Nat → Int → Decimal
  | 0, _ => number.exactly
  | steps + 1, power =>
    match number.nearest? tie power with
    | some point => ⟨point, power⟩
    | none => search number tie steps (power - 1)

/-- The decimal with the fewest digits that reads back as this number, and of those the
nearest. The finest grid needed lies below the smallest positive float, `2 ^ -1074`. -/
def shortest (number : Binary) (tie : Tie) : Decimal :=
  if number.mantissa = 0 then ⟨0, 0⟩
  else
    let top := (Nat.toDigits 10 (number.mantissa * Nat.pow 2 number.exponent.toNat)).length
    number.search tie (top + 345) top

end Binary
end Lowering
