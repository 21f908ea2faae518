import MovingAsymptotes.Barrier
import MovingAsymptotes.InteriorPoint.Direction
import MovingAsymptotes.Solution

/-!
# The interior-point method

All primal and dual variables move together. A step goes in the Newton direction, at first as far as all
signed variables stay positive, and is halved until the residual norm does not grow or the cap on trial
steps is reached.
-/

namespace MovingAsymptotes

variable {α : Type} [Scalar α] {n m : Nat}

namespace Approximation

/-- The point that a solve starts from: the middle of the move limits, with multipliers of at least
one. -/
def interiorStart (a : Approximation α n m) (wt : Weights α m) : KktPoint α n m :=
  let x : Vector α n := Vector.zipWith (fun l u => (l + u) * 0.5) a.limits.alfa a.limits.beta
  { x
    y := Vector.replicate m 1
    z := 1
    lambda := Vector.replicate m 1
    xsi := Vector.ofFn fun j => larger (1 / a.limits.roomBelow x j) 1
    eta := Vector.ofFn fun j => larger (1 / a.limits.roomAbove x j) 1
    mu := wt.c.map fun c => larger (0.5 * c) 1
    zet := 1
    s := Vector.replicate m 1 }

/-- How much of the step `v + dv` is too long for `v` to stay positive: more than one if it is. -/
def overshoot (v dv : α) : α := -1.01 * dv / v

/-- The overshoots of the variables of this rank. -/
def localOvershoots (a : Approximation α n m) (w dir : KktPoint α n m) : List α :=
  (List.finRange n).flatMap fun j =>
    [overshoot w.xsi[j] dir.xsi[j], overshoot w.eta[j] dir.eta[j],
      overshoot (a.limits.roomBelow w.x j) dir.x[j],
      overshoot (a.limits.roomAbove w.x j) (-dir.x[j])]

/-- The overshoots of the variables that all ranks share. -/
def sharedOvershoots (w dir : KktPoint α n m) : List α :=
  [overshoot w.z dir.z, overshoot w.zet dir.zet] ++
    (List.finRange m).flatMap fun i =>
      [overshoot w.y[i] dir.y[i], overshoot w.lambda[i] dir.lambda[i],
        overshoot w.mu[i] dir.mu[i], overshoot w.s[i] dir.s[i]]

/-- The inverse of the longest step, at most one, that keeps all signed variables positive. -/
def inverseStep (a : Approximation α n m) (w dir : KktPoint α n m) : Program α (Cause α) α := do
  let spread ← Program.reduceScalar .max ((a.localOvershoots w dir).foldl larger 1)
  return (sharedOvershoots w dir).foldl larger spread

/-- The point reached by a step, with its residual. -/
def trial (a : Approximation α n m) (wt : Weights α m) (w dir : KktPoint α n m) (epsi step : α) :
    Program α (Cause α) (KktPoint α n m × Residual α) := do
  let next := w.stepped dir step
  let residual ← a.residual wt next epsi
  return (next, residual)

/-- Trial steps, each half as long as the one before, until the residual norm is at most `norm`; at most
as many after the first as given. -/
def backtrack (a : Approximation α n m) (wt : Weights α m) (w dir : KktPoint α n m)
    (epsi norm : α) : Nat → α → Program α (Cause α) (KktPoint α n m × Residual α)
  | 0, step => a.trial wt w dir epsi step
  | more + 1, step => do
    let (next, residual) ← a.trial wt w dir epsi step
    if residual.norm ≤ norm then .pure (next, residual)
    else a.backtrack wt w dir epsi norm more (step * 0.5)

/-- The signed variables of a point, the smallest of those that belong to the constraints first. -/
def signedValues (w : KktPoint α n m) : List α :=
  (least w.y).toList ++ [w.z] ++ (least w.lambda).toList ++ (least w.mu).toList ++ [w.zet] ++
    (least w.s).toList ++ w.xsi.toList ++ w.eta.toList

/-- A Newton step with its line search. -/
def interiorStep (a : Approximation α n m) (wt : Weights α m) (s : Settings α) (e : Execution)
    (w : KktPoint α n m) (residual : Residual α) (epsi : α) :
    Program α (Cause α) (NewtonStep α (KktPoint α n m)) := do
  let dir ← a.newtonDirection wt e w epsi
  let inverse ← a.inverseStep w dir
  let (next, reached) ←
    a.backtrack wt w dir epsi residual.norm (s.maxBacktracks - 1) (1 / inverse)
  return {
    state := next
    residual := reached
    seen := signedValues next
    exhausted := residual.norm < reached.norm }

/-- The interior-point method as a barrier method. -/
def interiorMethod (a : Approximation α n m) (wt : Weights α m) (s : Settings α) (e : Execution) :
    BarrierMethod α (KktPoint α n m) where
  cap := s.primalDualMaxInner
  residual w epsi := a.residual wt w epsi
  advance w residual epsi := a.interiorStep wt s e w residual epsi

/-- Solves the subproblem for all its variables at once. -/
def solveInterior (a : Approximation α n m) (wt : Weights α m) (s : Settings α) (e : Execution) :
    Program α (Cause α) (Solution α n m) :=
  if m = 0 then .fail .noConstraints
  else do
    let (point, diagnostics) ←
      (a.interiorMethod wt s e).solve s.epsimin e.rounds (a.interiorStart wt)
    return { point, diagnostics }

end Approximation

end MovingAsymptotes
