import MovingAsymptotes.Approximation
import MovingAsymptotes.Diagnostics
import MovingAsymptotes.Kkt.Point

/-!
# Residuals of the optimality conditions

The optimality conditions of the subproblem, and those of the problem itself, are rows that vanish at a
solution: three for each design variable, four for each constraint, and two for the shared artificial
variable. A residual measures all rows over all ranks. The rows of the design variables are spread over
the ranks and reduced; the others are the same on every rank and are counted once.
-/

namespace MovingAsymptotes

variable {α : Type} [Scalar α] {n m : Nat}

/-- The sum of squares and the largest absolute value of some rows. -/
structure Tally (α : Type) where
  squares : α
  max : α

/-- The measures of a list of rows. -/
def Tally.ofRows (rows : List α) : Tally α :=
  rows.foldl
    (fun t r => { squares := t.squares + r * r, max := larger t.max (Scalar.abs r) })
    { squares := 0, max := 0 }

/-- The residual of rows that are spread over the ranks and rows that all ranks share. -/
def Residual.ofTallies (squares max : α) (shared : Tally α) : Residual α where
  norm := Scalar.sqrt (squares + shared.squares)
  max := larger max shared.max

/-- The rows that all ranks share: stationarity in `y` and in `z`, the violations of the constraints, and
the complementarity of `y`, of `z` and of the slacks, relaxed by `epsi`. -/
def sharedRows (w : Weights α m) (y mu lambda s : Vector α m) (z zet : α)
    (violations : Vector α m) (epsi : α) : List α :=
  (List.finRange m).map (fun i => w.c[i] + w.d[i] * y[i] - mu[i] - lambda[i]) ++
    [w.a0 - zet - dot w.a lambda] ++
    violations.toList ++
    (List.finRange m).map (fun i => mu[i] * y[i] - epsi) ++
    [zet * z - epsi] ++
    (List.finRange m).map (fun i => lambda[i] * s[i] - epsi)

namespace Approximation

/-- The rows of this rank's variables: stationarity, and the complementarity of the two move limits
relaxed by `epsi`. -/
def localRows (a : Approximation α n m) (w : KktPoint α n m) (epsi : α) : List α :=
  let gradient := a.lagrangianGradient w.x (a.lagrangian w.lambda)
  (List.finRange n).flatMap fun j =>
    [gradient[j] - w.xsi[j] + w.eta[j],
      w.xsi[j] * (w.x[j] - a.limits.alfa[j]) - epsi,
      w.eta[j] * (a.limits.beta[j] - w.x[j]) - epsi]

/-- The violations of the relaxed constraints with their slacks, from the constraint sums over all
ranks. -/
def violations (a : Approximation α n m) (wt : Weights α m) (w : KktPoint α n m)
    (sums : Vector α m) : Vector α m :=
  Vector.ofFn fun i => sums[i] - wt.a[i] * w.z - w.y[i] + w.s[i] - a.b[i]

/-- The residual of the subproblem with barrier parameter `epsi`; with `epsi = 0`, that of the
subproblem itself. One sum over the ranks carries the constraint sums and the squares. -/
def residual (a : Approximation α n m) (wt : Weights α m) (w : KktPoint α n m) (epsi : α) :
    Program α (Cause α) (Residual α) := do
  let own := Tally.ofRows (a.localRows w epsi)
  let sums ← Program.reduceAll .sum ((a.localSums w.x).push own.squares)
  let max ← Program.reduceScalar .max own.max
  let shared := Tally.ofRows
    (sharedRows wt w.y w.mu w.lambda w.s w.z w.zet (a.violations wt w sums.pop) epsi)
  return .ofTallies sums[Fin.last m] max shared

end Approximation

namespace Gradients

/-- The rows of this rank's variables in the problem itself: stationarity, and the complementarity of
the two bounds. -/
def localRows (d : Gradients α n m) (x : Vector α n) (bounds : Bounds α n) (w : KktPoint α n m) :
    List α :=
  let constraintPart := d.dgdx.mulVec w.lambda
  (List.finRange n).flatMap fun j =>
    [d.dfdx[j] + constraintPart[j] - w.xsi[j] + w.eta[j],
      w.xsi[j] * (x[j] - bounds.lower[j]),
      w.eta[j] * (bounds.upper[j] - x[j])]

/-- The violations of the relaxed constraints with their slacks, from the constraint values. -/
def violations (d : Gradients α n m) (wt : Weights α m) (w : KktPoint α n m) : Vector α m :=
  Vector.ofFn fun i => d.g[i] - wt.a[i] * w.z - w.y[i] + w.s[i]

/-- The residual of the problem itself at the design `x`, with the multipliers of a point. The
multipliers of the move limits stand for those of the bounds. -/
def residual (d : Gradients α n m) (x : Vector α n) (bounds : Bounds α n) (wt : Weights α m)
    (w : KktPoint α n m) : Program α (Cause α) (Residual α) := do
  let own := Tally.ofRows (d.localRows x bounds w)
  let squares ← Program.reduceScalar .sum own.squares
  let max ← Program.reduceScalar .max own.max
  let shared := Tally.ofRows
    (sharedRows wt w.y w.mu w.lambda w.s w.z w.zet (d.violations wt w) 0)
  return .ofTallies squares max shared

end Gradients

/-- The residual of the problem at the design `x`, once the extents of the gradients and of the point are
found to fit. The weights are those in force, whatever number of constraints they belong to; only if they
serve the constraints at hand is there a residual. -/
def Sensitivities.residual (d : Sensitivities α) (x : Vector α n) (bounds : Bounds α n)
    (draft : WeightDraft α) {n' m' : Nat} (w : KktPoint α n' m') :
    Program α (Cause α) (Residual α) := do
  let gradients ← .ofExcept (d.matched n)
  if hm : m' = d.g.size then
    if hn : n' = n then
      match draft.leading? d.g.size with
      | some wt => gradients.residual x bounds wt (w.cast hn hm)
      | none => .fail (.unfitWeights d.g.size)
    else .fail (.dimensionMismatch "bound multipliers" n n')
  else .fail (.dimensionMismatch "multipliers" d.g.size m')

end MovingAsymptotes
