import Lowering.Container.Growable
import Lowering.Container.Fixed
import Lowering.Container.Text
import Lowering.Decimal.Shortest

/-! How running programs show values. A value is shown piece by piece, since that is how it
reaches the output; its text is the pieces together. -/

namespace Lowering.Container

class Display (α : Type) where
  pieces : α → List String

namespace Display

def text [Display α] (value : α) : String :=
  String.join (pieces value)

instance : Display String := ⟨fun text => [text]⟩

instance : Display Bool := ⟨fun value => [if value then "true" else "false"]⟩

instance : Display Char := ⟨fun char => [char.toString]⟩

instance : Display Int64 := ⟨fun value => [Int.repr value.toInt]⟩

instance : Display UInt64 := ⟨fun value => [Nat.repr value.toNat]⟩

instance : Display Int8 := ⟨fun value => [Int.repr value.toInt]⟩

instance : Display UInt8 := ⟨fun value => [Nat.repr value.toNat]⟩

/-- The shortest digits that read back, place by place whatever the magnitude. Of two equally
near the upper is taken, a whole number has no point, and the sign shows on a negative zero. -/
def floatText (value : Float) : String :=
  let sign := if value.toBits >>> 63 = 1 then "-" else ""
  if value.isNaN then "NaN"
  else if value.isInf then sign ++ "inf"
  else sign ++ ((Binary.ofFloat value).shortest .upper).positional

instance : Display Float := ⟨fun value => [floatText value]⟩

instance : Display Text := ⟨fun text => text.toList.map Char.toString⟩

/-- Every element but the first follows a comma and a space. -/
def separated [Display α] : List α → List String
  | [] => []
  | [item] => pieces item
  | item :: rest => pieces item ++ ", " :: separated rest

def bracketed [Display α] (items : List α) : List String :=
  "[" :: separated items ++ ["]"]

instance [Display α] : Display (Growable α) := ⟨fun vector => bracketed vector.toList⟩

instance [Display α] : Display (Fixed α) := ⟨fun array => bracketed array.toList⟩

end Display
end Lowering.Container
