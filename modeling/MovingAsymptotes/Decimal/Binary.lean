/-!
# Doubles as exact numbers

A double is undefined, infinite, or a signed whole number times a power of two. The whole number and
the power are read off the bit pattern: eleven bits of exponent, then fifty-two bits of fraction.
-/

namespace MovingAsymptotes.Decimal

/-- What a double stands for. -/
inductive Binary where
  /-- No number. -/
  | undefined
  /-- An infinity. -/
  | infinite (negative : Bool)
  /-- The number `significand * 2 ^ exponent`, or its negative. Zero keeps its sign. -/
  | finite (negative : Bool) (significand : Nat) (exponent : Int)

/-- The number that a bit pattern of sixty-four bits encodes. -/
def Binary.ofBits (bits : Nat) : Binary :=
  let negative := bits / Nat.pow 2 63 % 2 = 1
  let biased : Nat := bits / Nat.pow 2 52 % Nat.pow 2 11
  let fraction : Nat := bits % Nat.pow 2 52
  if biased = 2047 then
    if fraction = 0 then .infinite negative else .undefined
  else if biased = 0 then .finite negative fraction (-1074)
  else .finite negative (Nat.pow 2 52 + fraction) (biased - 1075)

/-- The number that a double stands for. -/
def Binary.ofFloat (x : Float) : Binary := .ofBits x.toBits.toNat

end MovingAsymptotes.Decimal
