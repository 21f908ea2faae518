import MovingAsymptotes.Barrier
import MovingAsymptotes.Dual.Point
import MovingAsymptotes.Execution
import MovingAsymptotes.Kkt.Residual
import MovingAsymptotes.Linear.Elimination
import MovingAsymptotes.Solution

/-!
# Newton's method on the dual

The dual function is concave and smooth in the multipliers of the constraints. It is maximised by Newton
steps on the multipliers `lambda` and on the multipliers `eta` of `0 ≤ lambda`. Only the gradient and the
Hessian depend on the distributed variables; the Newton system has one equation for each constraint and
is solved by every rank. Once the multipliers are found, the remaining multipliers and the slacks follow
from stationarity.
-/

namespace MovingAsymptotes

variable {α : Type} [Scalar α] {n m : Nat}

/-- The multipliers of a dual solve with the minimiser and the gradient that belong to them. -/
structure DualState (α : Type) (n m : Nat) where
  lambda : Vector α m
  /-- The multipliers of `0 ≤ lambda`. -/
  eta : Vector α m
  point : DualPoint α n m
  gradient : Vector α m

namespace DualState

/-- The state with the given multipliers. -/
def ofMultipliers (a : Approximation α n m) (w : Weights α m) (lambda eta : Vector α m) :
    Program α (Cause α) (DualState α n m) := do
  let point := DualPoint.ofMultipliers a w lambda
  let gradient ← point.gradient a w
  return { lambda, eta, point, gradient }

/-- The multipliers of the constraints that a solve starts from. -/
def initialLambda : α := 500.0

/-- The rows of the dual conditions: stationarity and relaxed complementarity of each multiplier. -/
def rows (s : DualState α n m) (epsi : α) : List α :=
  (List.finRange m).flatMap fun i =>
    [s.gradient[i] + s.eta[i], s.eta[i] * s.lambda[i] - epsi]

/-- The residual of the dual conditions. -/
def residual (s : DualState α n m) (epsi : α) : Residual α :=
  let tally := Tally.ofRows (s.rows epsi)
  { norm := Scalar.sqrt tally.squares, max := tally.max }

/-- The amount by which the Hessian is damped. It follows the curvature of the dual function and stays
below zero. -/
def damping (hess : Mat α m m) : α := smaller (1e-4 * hess.trace / (m : α)) (-1e-7)

/-- The matrix of the Newton system. -/
def system (s : DualState α n m) (hess : Mat α m m) : Mat α m m :=
  Mat.ofFn fun i k =>
    if i = k then hess[i][k] - s.eta[i] / s.lambda[i] + damping hess else hess[i][k]

/-- The right-hand side of the Newton system. -/
def rhs (s : DualState α n m) (epsi : α) : Vector α m :=
  Vector.ofFn fun i => -s.gradient[i] - epsi / s.lambda[i]

/-- The step of `eta` that belongs to a step of `lambda`. -/
def etaStep (s : DualState α n m) (epsi : α) (dlam : Vector α m) : Vector α m :=
  Vector.ofFn fun i =>
    -s.eta[i] + epsi / s.lambda[i] - dlam[i] * (s.eta[i] / s.lambda[i])

/-- The steps of `lambda` and of `eta`, if the Newton system has a solution. -/
def direction? (s : DualState α n m) (hess : Mat α m m) (epsi : α) :
    Option (Vector α m × Vector α m) :=
  ((s.system hess).solve? (s.rhs epsi)).map fun dlam => (dlam, s.etaStep epsi dlam)

/-- The step length shortened so that `v` keeps its sign in direction `dv`. A direction that does not
move `v` leaves the step as it is. -/
def shorten (theta : α) (v dv : α) : α :=
  if Agrees dv 0 then theta
  else
    let ratio := -0.99 * v / dv
    if 0 ≤ ratio then smaller theta ratio else theta

/-- The largest step, at most one, that keeps all multipliers positive. -/
def stepLength (s : DualState α n m) (dlam deta : Vector α m) : α :=
  ((s.lambda.zip dlam).toList ++ (s.eta.zip deta).toList).foldl
    (fun theta (v, dv) => shorten theta v dv) 1

/-- A Newton step. -/
def advance (a : Approximation α n m) (w : Weights α m) (s : DualState α n m) (epsi : α) :
    Program α (Cause α) (NewtonStep α (DualState α n m)) := do
  let hess ← s.point.hessian a w s.lambda
  match s.direction? hess epsi with
  | none => .fail (.singularSystem Method.dualNewton.title)
  | some (dlam, deta) =>
    let theta := s.stepLength dlam deta
    let next ← ofMultipliers a w
      (KktPoint.along s.lambda dlam theta) (KktPoint.along s.eta deta theta)
    return {
      state := next
      residual := next.residual epsi
      seen := (least next.lambda).toList ++ (least next.eta).toList
      exhausted := false }

/-- The primal-dual point of a solve: the minimiser, and the multipliers and slacks that make it
stationary. -/
def toPoint (s : DualState α n m) (a : Approximation α n m) (w : Weights α m) : KktPoint α n m :=
  let slope := a.lagrangianGradient s.point.x s.point.lagrangian
  { x := s.point.x
    y := s.point.y
    z := s.point.z
    lambda := s.lambda
    xsi := slope.map positivePart
    eta := slope.map negativePart
    mu := Vector.ofFn fun i => positivePart (w.c[i] + w.d[i] * s.point.y[i] - s.lambda[i])
    zet := positivePart (w.a0 - dot w.a s.lambda)
    s := s.gradient.map negativePart }

end DualState

/-- Newton's method on the dual as a barrier method. -/
def dualMethod (a : Approximation α n m) (w : Weights α m) (s : Settings α) :
    BarrierMethod α (DualState α n m) where
  cap := s.dualMaxInner
  residual state epsi := .pure (state.residual epsi)
  advance state _ epsi := state.advance a w epsi

/-- Solves the subproblem through its dual. -/
def Approximation.solveDual (a : Approximation α n m) (w : Weights α m) (s : Settings α)
    (e : Execution) : Program α (Cause α) (Solution α n m) :=
  if m = 0 then .fail .noConstraints
  else do
    let start ← DualState.ofMultipliers a w
      (Vector.replicate m DualState.initialLambda) (Vector.replicate m 1)
    let (state, diagnostics) ← (dualMethod a w s).solve s.epsimin e.rounds start
    return { point := state.toPoint a w, diagnostics }

end MovingAsymptotes
