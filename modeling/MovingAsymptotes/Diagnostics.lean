import MovingAsymptotes.Scalar

/-!
# Diagnostics

What a subproblem solve records about itself, and the measures of a residual vector.
-/

namespace MovingAsymptotes

/-- The Euclidean norm and the largest absolute value of the rows of a residual vector. -/
structure Residual (α : Type) where
  norm : α
  max : α
deriving BEq, Repr

/-- Counters and measures of a subproblem solve. -/
structure Diagnostics (α : Type) where
  /-- Barrier levels gone through. -/
  barrierLevels : Nat
  /-- Newton steps taken, over all levels. -/
  newtonIterations : Nat
  /-- Barrier levels left on the iteration cap. -/
  cappedLevels : Nat
  /-- Line searches left on the cap of trial steps. -/
  exhaustedLineSearches : Nat
  /-- The residual norm at the end of the last level. -/
  residualNorm : α
  /-- The largest residual at the end of the last level. -/
  residualMax : α
  /-- The smallest multiplier seen after any step; absent before the first step. -/
  minMultiplier : Option α
deriving BEq, Repr

variable {α : Type} [Scalar α]

namespace Diagnostics

/-- The record before the first barrier level. -/
def initial : Diagnostics α where
  barrierLevels := 0
  newtonIterations := 0
  cappedLevels := 0
  exhaustedLineSearches := 0
  residualNorm := 0
  residualMax := 0
  minMultiplier := none

/-- The smallest number seen so far once `a` is seen too. -/
def smallestSeen (seen : Option α) (a : α) : Option α :=
  match seen with
  | some b => some (smaller b a)
  | none => if IsNumber a then some a else none

/-- The record after the multipliers `seen`. -/
def observe (d : Diagnostics α) (seen : List α) : Diagnostics α :=
  { d with minMultiplier := seen.foldl smallestSeen d.minMultiplier }

end Diagnostics

end MovingAsymptotes
