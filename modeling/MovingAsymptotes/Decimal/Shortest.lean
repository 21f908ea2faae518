/-!
# Shortest decimals

The decimal with the fewest digits that reads back as a given double, and of those the one nearest to
it. A decimal reads back as the double if it lies in the interval of numbers that round to it. Decimals
with few digits are the multiples of a large power of ten, so the search goes from coarse grids to fine
ones, and on each grid only the two neighbours of the double have to be tried.
-/

namespace MovingAsymptotes.Decimal

/-- The decimal number `digits * 10 ^ exponent`. -/
structure Numeral where
  /-- The digits, read as a whole number. -/
  digits : Nat
  /-- The power of ten of the last digit. -/
  exponent : Int

/-- A positive double with the interval of numbers that round to it, as fractions over one
denominator. -/
structure RoundingInterval where
  /-- The numerator of the lower end. -/
  low : Nat
  /-- The numerator of the double itself. -/
  value : Nat
  /-- The numerator of the upper end. -/
  high : Nat
  /-- The denominator of all three. -/
  denominator : Nat
  /-- Whether the ends round to the double as well. -/
  closed : Bool

namespace RoundingInterval

/-- The interval of numbers that round to `significand * 2 ^ exponent`. Its ends lie halfway to the
neighbouring doubles, the lower one at half that distance below a power of two, and they belong to the
interval if the significand is even. -/
def ofBinary (significand : Nat) (exponent : Int) : RoundingInterval :=
  let scale := Nat.pow 2 (exponent - 2).toNat
  let gap := if significand = Nat.pow 2 52 ∧ exponent ≠ -1074 then 1 else 2
  { low := (4 * significand - gap) * scale
    value := 4 * significand * scale
    high := (4 * significand + 2) * scale
    denominator := Nat.pow 2 (2 - exponent).toNat
    closed := significand % 2 = 0 }

/-- Whether `point * unit / scale` lies in the interval, once both sides are multiplied out. -/
def Holds (i : RoundingInterval) (unit scale point : Nat) : Prop :=
  if i.closed then i.low * scale ≤ point * unit ∧ point * unit ≤ i.high * scale
  else i.low * scale < point * unit ∧ point * unit < i.high * scale

instance (i : RoundingInterval) (unit scale point : Nat) : Decidable (i.Holds unit scale point) := by
  unfold Holds; infer_instance

/-- The multiple of `10 ^ grid` in the interval that is nearest to the double; halfway between two of
them, the larger one. -/
def nearest? (i : RoundingInterval) (grid : Int) : Option Numeral :=
  let unit := i.denominator * Nat.pow 10 grid.toNat
  let scale := Nat.pow 10 (-grid).toNat
  let below := i.value * scale / unit
  let remainder := i.value * scale % unit
  let point :=
    if i.Holds unit scale below ∧ (2 * remainder < unit ∨ ¬ i.Holds unit scale (below + 1)) then
      some below
    else if i.Holds unit scale (below + 1) then some (below + 1)
    else none
  point.map fun digits => { digits, exponent := grid }

/-- The nearest point of the coarsest decimal grid that meets the interval. The coarsest grid that a
double can need is that of `10 ^ 308`, and the grid of `10 ^ (-1074)` holds every double itself. -/
def shortest? (i : RoundingInterval) : Option Numeral :=
  (List.range (308 + 1074 + 1)).findSome? fun k : Nat => i.nearest? (308 - k)

end RoundingInterval

end MovingAsymptotes.Decimal
