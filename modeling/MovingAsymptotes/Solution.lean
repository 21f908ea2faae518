import MovingAsymptotes.Diagnostics
import MovingAsymptotes.Kkt.Point

/-!
# Solutions

The outcome of a subproblem solve, whichever backend produced it.
-/

namespace MovingAsymptotes

/-- A primal-dual point with the record of the solve that led to it. -/
structure Solution (α : Type) (n m : Nat) where
  point : KktPoint α n m
  diagnostics : Diagnostics α

end MovingAsymptotes
