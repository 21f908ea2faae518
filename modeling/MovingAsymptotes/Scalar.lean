/-!
# Scalars

The arithmetic that every algorithm of the library is written in. A scalar type brings its operations
and its comparisons and promises no law, so the same definitions run on doubles and are read over the
real numbers, over the reals with an undefined value added, or over any other arithmetic.

Whatever can be said through the comparisons is defined here rather than left to the instances:
equality to zero, and the larger and the smaller of two scalars. A scalar that is not a number compares
false with everything, itself included, and `larger` and `smaller` then answer their other argument.
-/

namespace MovingAsymptotes

/-- Arithmetic with decidable comparisons. No law is part of the class. -/
class Scalar (α : Type) extends Zero α, One α, NatCast α, OfScientific α, Add α, Sub α, Mul α,
    Div α, Neg α, LT α, LE α where
  decidableLT : DecidableLT α
  decidableLE : DecidableLE α
  abs : α → α
  sqrt : α → α
  pow : α → α → α
  /-- Whether the scalar is a number of finite size. -/
  isFinite : α → Bool
  /-- The whole part of a non-negative scalar. -/
  whole : α → Nat

variable {α : Type} [Scalar α]

instance instDecidableLTScalar : DecidableLT α := Scalar.decidableLT

instance instDecidableLEScalar : DecidableLE α := Scalar.decidableLE

/-- A scalar that is comparable with itself, as all but undefined ones are. -/
def IsNumber (a : α) : Prop := a ≤ a

instance (a : α) : Decidable (IsNumber a) := inferInstanceAs (Decidable (a ≤ a))

/-- Equality in the order: each is at most the other. -/
def Agrees (a b : α) : Prop := a ≤ b ∧ b ≤ a

instance (a b : α) : Decidable (Agrees a b) := inferInstanceAs (Decidable (_ ∧ _))

/-- The larger of two scalars, or the other one where one of them is not a number. -/
def larger (a b : α) : α :=
  if IsNumber a then (if a < b then b else a) else b

/-- The smaller of two scalars, or the other one where one of them is not a number. -/
def smaller (a b : α) : α :=
  if IsNumber a then (if b < a then b else a) else b

/-- The part of a scalar above zero. -/
def positivePart (a : α) : α := larger a 0

/-- The part of a scalar below zero, counted upwards. -/
def negativePart (a : α) : α := larger (-a) 0

/-- The scalar moved into the interval from `lo` to `hi`; the lower end wins if the ends cross. -/
def clamp (lo hi a : α) : α := larger (smaller a hi) lo

/-- A scalar above zero and of finite size. -/
def IsPositive (a : α) : Prop := 0 < a ∧ Scalar.isFinite a = true

instance (a : α) : Decidable (IsPositive a) := inferInstanceAs (Decidable (_ ∧ _))

/-- A scalar strictly between zero and one. -/
def InUnitInterval (a : α) : Prop := 0 < a ∧ a < 1

instance (a : α) : Decidable (InUnitInterval a) := inferInstanceAs (Decidable (_ ∧ _))

end MovingAsymptotes
