import MovingAsymptotes.Decimal.Binary
import MovingAsymptotes.Decimal.Shortest

/-!
# Written numbers

Two ways to write a double with its shortest digits. Positional notation never uses an exponent and
leaves out the point of a whole number. Scientific notation has one digit before the point and an
exponent without sign or padding where it is not negative. Both write zero with its sign.
-/

namespace MovingAsymptotes.Decimal

namespace Numeral

/-- The digits as characters, the highest first. -/
def characters (d : Numeral) : List Char := Nat.toDigits 10 d.digits

/-- The numeral without an exponent. -/
def positional (d : Numeral) : List Char :=
  let digits := d.characters
  let places := (-d.exponent).toNat
  if places = 0 then digits ++ List.replicate d.exponent.toNat '0'
  else if places < digits.length then
    digits.take (digits.length - places) ++ '.' :: digits.drop (digits.length - places)
  else '0' :: '.' :: List.replicate (places - digits.length) '0' ++ digits

/-- The numeral with one digit before the point. -/
def scientific (d : Numeral) : List Char :=
  let digits := d.characters
  let fraction := digits.drop 1
  let exponent := d.exponent + (digits.length : Int) - 1
  digits.take 1 ++ (if fraction.isEmpty then [] else '.' :: fraction) ++
    'e' :: (toString exponent).toList

end Numeral

/-- A double written with its shortest digits, which `write` lays out and which are `zero` for zero. -/
def written (write : Numeral → List Char) (zero : String) (x : Float) : String :=
  let signed (negative : Bool) (text : String) := if negative then "-" ++ text else text
  match Binary.ofFloat x with
  | .undefined => "NaN"
  | .infinite negative => signed negative "inf"
  | .finite negative significand exponent =>
    if significand = 0 then signed negative zero
    else match (RoundingInterval.ofBinary significand exponent).shortest? with
      | some numeral => signed negative (String.ofList (write numeral))
      | none => signed negative zero

/-- A double in positional notation. -/
def positional (x : Float) : String := written Numeral.positional "0" x

/-- A double in scientific notation. -/
def scientific (x : Float) : String := written Numeral.scientific "0e0" x

end MovingAsymptotes.Decimal
