import MovingAsymptotes.Asymptotes
import MovingAsymptotes.Reduction.Program

/-!
# Convergence

What the optimizer reports to the loop that drives it: the largest step of a design variable, relative to
its range and over all ranks, and the residual of the last subproblem solve.
-/

namespace MovingAsymptotes

/-- Signals to the loop that drives the optimizer. -/
structure Convergence (α : Type) where
  /-- The largest relative step of a design variable, over all ranks. -/
  change : α
  residualNorm : α
  residualMax : α
deriving BEq, Repr

variable {α : Type} [Scalar α] {n : Nat}

/-- The signals before the first update. -/
def Convergence.initial : Convergence α where
  change := 0
  residualNorm := 0
  residualMax := 0

/-- The largest relative step of this rank's variables, or zero if the rank has none. -/
def localChange (x previous : Vector α n) (b : Bounds α n) : α :=
  Fin.foldl n
    (fun largest j => larger largest (Scalar.abs ((x[j] - previous[j]) / b.range j))) 0

/-- The largest relative step over all ranks. -/
def designChange (x previous : Vector α n) (b : Bounds α n) : Program α (Cause α) α :=
  Program.reduceScalar .max (localChange x previous b)

end MovingAsymptotes
