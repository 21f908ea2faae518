import MovingAsymptotes.Approximation

/-!
# The dual function

For given multipliers the Lagrangian of the subproblem is separable, and its minimiser has a closed form.
The gradient of the dual function is the violation of the constraints at that minimiser, and its Hessian
collects the curvature of the variables that are not held by a move limit or by zero.
-/

namespace MovingAsymptotes

variable {α : Type} [Scalar α] {n m : Nat}

/-- The minimiser of the Lagrangian for some multipliers. -/
structure DualPoint (α : Type) (n m : Nat) where
  x : Vector α n
  /-- The artificial variables of the constraints. -/
  y : Vector α m
  /-- The artificial variable shared by all constraints. -/
  z : α
  lagrangian : Lagrangian α n

/-- The slope of `z` against the excess of the multipliers. -/
def zScale : α := 10.0

namespace DualPoint

/-- The minimiser in direction of variable `j` between the asymptotes. -/
def unclamped (a : Approximation α n m) (l : Lagrangian α n) (j : Fin n) : α :=
  let p := Scalar.sqrt l.plam[j]
  let q := Scalar.sqrt l.qlam[j]
  (p * a.asymptotes.low[j] + q * a.asymptotes.upp[j]) / (p + q)

/-- The minimiser of the Lagrangian for the multipliers `lambda`. -/
def ofMultipliers (a : Approximation α n m) (w : Weights α m) (lambda : Vector α m) :
    DualPoint α n m :=
  let l := a.lagrangian lambda
  { x := Vector.ofFn fun j => clamp a.limits.alfa[j] a.limits.beta[j] (unclamped a l j)
    y := Vector.ofFn fun i => positivePart ((lambda[i] - w.c[i]) / w.d[i])
    z := zScale * positivePart ((dot lambda w.a - w.a0) / w.b0)
    lagrangian := l }

/-- A variable strictly between its move limits. -/
def IsFree (a : Approximation α n m) (pt : DualPoint α n m) (j : Fin n) : Prop :=
  a.limits.alfa[j] < pt.x[j] ∧ pt.x[j] < a.limits.beta[j]

instance (a : Approximation α n m) (pt : DualPoint α n m) (j : Fin n) : Decidable (pt.IsFree a j) :=
  inferInstanceAs (Decidable (_ ∧ _))

/-- The inverse curvature of the Lagrangian in direction of variable `j`, or zero if a move limit holds
the variable. The coefficients are doubled before they are divided, so that a curvature beyond the range
of the scalars counts as infinite. -/
def inverseCurvature (a : Approximation α n m) (pt : DualPoint α n m) (j : Fin n) : α :=
  if pt.IsFree a j then
    let above := a.asymptotes.above pt.x j
    let below := a.asymptotes.below pt.x j
    1 / (2.0 * pt.lagrangian.plam[j] / (above * above * above) +
      2.0 * pt.lagrangian.qlam[j] / (below * below * below))
  else 0

/-- The gradient of the dual function: the values of the relaxed constraints. -/
def gradient (a : Approximation α n m) (w : Weights α m) (pt : DualPoint α n m) :
    Program α (Cause α) (Vector α m) := do
  let sums ← Program.reduceAll .sum (a.localSums pt.x)
  return Vector.ofFn fun i => sums[i] - (a.b[i] + w.a[i] * pt.z + pt.y[i])

/-- The share of this rank's variables in the Hessian of the dual function. -/
def localHessian (a : Approximation α n m) (pt : DualPoint α n m) : Mat α m m :=
  let slopes : Mat α m n := Mat.ofFn fun i j => a.slopeAt pt.x i j
  let product := slopes.congruence (Vector.ofFn fun j => pt.inverseCurvature a j)
  Mat.ofFn fun i k => -product[i][k]

/-- The Hessian of the dual function. An artificial variable adds its own curvature where it is not
held at zero. -/
def hessian (a : Approximation α n m) (w : Weights α m) (pt : DualPoint α n m)
    (lambda : Vector α m) : Program α (Cause α) (Mat α m m) := do
  let sums ← Program.reduceAll .sum (localHessian a pt).entries
  let spread := Mat.ofEntries sums
  let withY : Mat α m m := Mat.ofFn fun i k =>
    if i = k ∧ w.c[i] < lambda[i] then spread[i][k] - 1 / w.d[i] else spread[i][k]
  return if 0 < pt.z then
    Mat.ofFn fun i k => withY[i][k] - w.a[i] * w.a[k] * (zScale / w.b0)
  else withY

end DualPoint

end MovingAsymptotes
