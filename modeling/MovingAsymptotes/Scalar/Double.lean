import MovingAsymptotes.Scalar

/-!
# Double precision

Binary floating-point numbers of 64 bits as scalars. The square root is correctly rounded; a power is
accurate to the last place or so.
-/

namespace MovingAsymptotes

/-- Doubles. The whole part is taken toward zero, and is zero for a negative double. -/
instance : Scalar Float where
  natCast := Float.ofNat
  decidableLT := Float.decLt
  decidableLE := Float.decLe
  abs := Float.abs
  sqrt := Float.sqrt
  pow := Float.pow
  isFinite := Float.isFinite
  whole a := a.toUInt64.toNat

end MovingAsymptotes
