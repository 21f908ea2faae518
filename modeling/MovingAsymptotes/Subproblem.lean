import MovingAsymptotes.Dual.Newton
import MovingAsymptotes.InteriorPoint.Solver

/-!
# Subproblem solves

The two backends behind one function.
-/

namespace MovingAsymptotes

/-- Solves the subproblem by the method that the settings name. -/
def Approximation.solve {α : Type} [Scalar α] {n m : Nat} (a : Approximation α n m)
    (wt : Weights α m) (s : Settings α) (e : Execution) : Program α (Cause α) (Solution α n m) :=
  match s.method with
  | .dualNewton => a.solveDual wt s e
  | .primalDual => a.solveInterior wt s e

end MovingAsymptotes
