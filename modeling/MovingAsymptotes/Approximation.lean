import MovingAsymptotes.Asymptotes
import MovingAsymptotes.Reduction.Program
import MovingAsymptotes.Sensitivities

/-!
# Separable convex approximations

The objective and every constraint are replaced by a sum of terms `p / (upp - x) + q / (x - low)`, one for
each variable, with coefficients that are not negative. Such a sum is convex between the asymptotes. The
coefficients are chosen so that the gradient at the current design is that of the function itself, and
the right-hand sides `b` so that the values of the constraints agree there too.
-/

namespace MovingAsymptotes

/-- The approximation of a problem with `m` constraints on the `n` variables of a rank. -/
structure Approximation (α : Type) (n m : Nat) where
  /-- The poles of the terms. -/
  asymptotes : Asymptotes α n
  /-- The box in which the approximation is used. -/
  limits : MoveLimits α n
  /-- The coefficients of the objective at the upper asymptotes. -/
  p0 : Vector α n
  /-- The coefficients of the objective at the lower asymptotes. -/
  q0 : Vector α n
  /-- The coefficients of the constraints at the upper asymptotes. -/
  p : Mat α n m
  /-- The coefficients of the constraints at the lower asymptotes. -/
  q : Mat α n m
  /-- The right-hand sides of the constraints. -/
  b : Vector α m
  /-- The number of variables over all ranks. -/
  nGlobal : Nat

/-- The coefficients of the Lagrangian for given multipliers. -/
structure Lagrangian (α : Type) (n : Nat) where
  /-- The coefficients at the upper asymptotes. -/
  plam : Vector α n
  /-- The coefficients at the lower asymptotes. -/
  qlam : Vector α n

variable {α : Type} [Scalar α] {n m : Nat}

/-- The distance of a variable from its upper asymptote. -/
def Asymptotes.above (asy : Asymptotes α n) (x : Vector α n) (j : Fin n) : α := asy.upp[j] - x[j]

/-- The distance of a variable from its lower asymptote. -/
def Asymptotes.below (asy : Asymptotes α n) (x : Vector α n) (j : Fin n) : α := x[j] - asy.low[j]

/-- The least distance between two asymptotes that the regularisation reckons with. -/
def minAsymptoteGap : α := 1e-5

/-- A slope divided between the two asymptotes, the rising part to the upper one. Both parts are raised
by a thousandth of the slope and by a share of `raa0`, which cancels in the gradient. -/
def slopeShares (raa0 gap slope : α) : α × α :=
  let rising := positivePart slope
  let falling := negativePart slope
  let raised := 0.001 * (rising + falling) + 0.5 * raa0 / gap
  (rising + raised, falling + raised)

namespace Approximation

/-- The coefficient at the upper asymptote of variable `j` for a function with the given slope. -/
def upperCoefficient (asy : Asymptotes α n) (s : Settings α) (x : Vector α n) (j : Fin n)
    (slope : α) : α :=
  let gap := larger (asy.upp[j] - asy.low[j]) minAsymptoteGap
  (slopeShares s.raa0 gap slope).1 * (asy.above x j * asy.above x j)

/-- The coefficient at the lower asymptote of variable `j` for a function with the given slope. -/
def lowerCoefficient (asy : Asymptotes α n) (s : Settings α) (x : Vector α n) (j : Fin n)
    (slope : α) : α :=
  let gap := larger (asy.upp[j] - asy.low[j]) minAsymptoteGap
  (slopeShares s.raa0 gap slope).2 * (asy.below x j * asy.below x j)

/-- The share of this rank's variables in the values of the approximated constraints. -/
def localSums (a : Approximation α n m) (x : Vector α n) : Vector α m :=
  Vector.ofFn fun i => sumOver fun j : Fin n =>
    a.p[j][i] * (1 / a.asymptotes.above x j) + a.q[j][i] * (1 / a.asymptotes.below x j)

/-- The coefficients of the Lagrangian for the multipliers `lambda`. -/
def lagrangian (a : Approximation α n m) (lambda : Vector α m) : Lagrangian α n where
  plam := Vector.zipWith (· + ·) a.p0 (a.p.mulVec lambda)
  qlam := Vector.zipWith (· + ·) a.q0 (a.q.mulVec lambda)

/-- The gradient of the Lagrangian at `x`. -/
def lagrangianGradient (a : Approximation α n m) (x : Vector α n) (l : Lagrangian α n) :
    Vector α n :=
  Vector.ofFn fun j =>
    l.plam[j] / (a.asymptotes.above x j * a.asymptotes.above x j) -
      l.qlam[j] / (a.asymptotes.below x j * a.asymptotes.below x j)

/-- The second derivative of the Lagrangian in direction of variable `j`. -/
def lagrangianCurvature (a : Approximation α n m) (x : Vector α n) (l : Lagrangian α n)
    (j : Fin n) : α :=
  let above := a.asymptotes.above x j
  let below := a.asymptotes.below x j
  2.0 * (l.plam[j] / (above * above * above) + l.qlam[j] / (below * below * below))

/-- The gradient of constraint `i` in direction of variable `j`. -/
def slopeAt (a : Approximation α n m) (x : Vector α n) (i : Fin m) (j : Fin n) : α :=
  a.p[j][i] / (a.asymptotes.above x j * a.asymptotes.above x j) -
    a.q[j][i] / (a.asymptotes.below x j * a.asymptotes.below x j)

/-- The approximation around `x` before its right-hand sides are known. -/
def coefficients (x : Vector α n) (d : Gradients α n m) (asy : Asymptotes α n)
    (limits : MoveLimits α n) (nGlobal : Nat) (s : Settings α) : Approximation α n m where
  asymptotes := asy
  limits
  p0 := Vector.ofFn fun j => upperCoefficient asy s x j d.dfdx[j]
  q0 := Vector.ofFn fun j => lowerCoefficient asy s x j d.dfdx[j]
  p := Mat.ofFn fun j i => upperCoefficient asy s x j d.dgdx[j][i]
  q := Mat.ofFn fun j i => lowerCoefficient asy s x j d.dgdx[j][i]
  b := Vector.replicate m 0
  nGlobal

/-- The approximation around `x`. Its right-hand sides take a sum over all ranks. -/
def build (x : Vector α n) (d : Gradients α n m) (asy : Asymptotes α n) (limits : MoveLimits α n)
    (nGlobal : Nat) (s : Settings α) : Program α (Cause α) (Approximation α n m) := do
  let a := coefficients x d asy limits nGlobal s
  let sums ← Program.reduceAll .sum (a.localSums x)
  return { a with b := Vector.zipWith (· - ·) sums d.g }

end Approximation

end MovingAsymptotes
