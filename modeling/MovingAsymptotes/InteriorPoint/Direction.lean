import MovingAsymptotes.Execution
import MovingAsymptotes.Kkt.Residual
import MovingAsymptotes.Linear.Bordered

/-!
# The Newton direction of the interior-point method

The conditions of the subproblem, relaxed by a barrier parameter, are linearised at a point at which all
signed variables are positive. The complementarity rows are eliminated, which leaves diagonal blocks and
the gradients of the constraints. From there two eliminations lead to a dense system: one leaves the
multipliers of the constraints and `z`, the other the design variables and `z`. The first is a sum over
the ranks and serves every distribution; the second is taken by a single rank that has at least as many
constraints as variables.
-/

namespace MovingAsymptotes

variable {α : Type} [Scalar α] {n m : Nat}

/-- The linearised conditions once the complementarity rows are eliminated. -/
structure NewtonBlocks (α : Type) (n m : Nat) where
  /-- The gradients of the constraints, one row for each. -/
  gg : Mat α m n
  /-- The right-hand side of stationarity in `x`. -/
  delx : Vector α n
  /-- The diagonal of stationarity in `x`. -/
  diagx : Vector α n
  /-- The right-hand side of stationarity in `y`. -/
  dely : Vector α m
  /-- The diagonal of stationarity in `y`. -/
  diagy : Vector α m
  /-- The right-hand side of stationarity in `z`. -/
  delz : α
  /-- The diagonal of stationarity in `z`. -/
  diagz : α
  /-- The right-hand side of the constraints. -/
  dellam : Vector α m
  /-- The diagonal of the constraints, with `y` eliminated. -/
  diaglamyi : Vector α m

/-- The part of a direction that a dense system determines. -/
structure CoreDirection (α : Type) (n m : Nat) where
  dx : Vector α n
  dlam : Vector α m
  dz : α

/-- The distance of a variable from its lower move limit. -/
def MoveLimits.roomBelow (l : MoveLimits α n) (x : Vector α n) (j : Fin n) : α := x[j] - l.alfa[j]

/-- The distance of a variable from its upper move limit. -/
def MoveLimits.roomAbove (l : MoveLimits α n) (x : Vector α n) (j : Fin n) : α := l.beta[j] - x[j]

namespace NewtonBlocks

/-- The blocks at a point, from the constraint sums over all ranks. -/
def ofPoint (a : Approximation α n m) (wt : Weights α m) (w : KktPoint α n m) (epsi : α)
    (sums : Vector α m) : NewtonBlocks α n m :=
  let l := a.lagrangian w.lambda
  let gradient := a.lagrangianGradient w.x l
  let diagy : Vector α m := Vector.ofFn fun i => wt.d[i] + w.mu[i] / w.y[i]
  { gg := Mat.ofFn fun i j => a.slopeAt w.x i j
    delx := Vector.ofFn fun j =>
      gradient[j] - epsi / a.limits.roomBelow w.x j + epsi / a.limits.roomAbove w.x j
    diagx := Vector.ofFn fun j =>
      a.lagrangianCurvature w.x l j +
        w.xsi[j] / a.limits.roomBelow w.x j + w.eta[j] / a.limits.roomAbove w.x j
    dely := Vector.ofFn fun i => wt.c[i] + wt.d[i] * w.y[i] - w.lambda[i] - epsi / w.y[i]
    diagy
    delz := wt.a0 - dot wt.a w.lambda - epsi / w.z
    diagz := w.zet / w.z
    dellam := Vector.ofFn fun i =>
      sums[i] - wt.a[i] * w.z - w.y[i] - a.b[i] + epsi / w.lambda[i]
    diaglamyi := Vector.ofFn fun i => w.s[i] / w.lambda[i] + 1 / diagy[i] }

/-- The right-hand side of the constraints with `y` eliminated. -/
def dellamyi (k : NewtonBlocks α n m) (i : Fin m) : α := k.dellam[i] + k.dely[i] / k.diagy[i]

/-- Eliminates `x` and `y` and solves for the multipliers and `z`. The matrix and the right-hand side are
sums over the ranks. -/
def solveForMultipliers (k : NewtonBlocks α n m) (shares : Vector α m) :
    Program α (Cause α) (CoreDirection α n m) := do
  let inverse : Vector α n := k.diagx.map fun d => 1 / d
  let scaled : Vector α n := Vector.zipWith (· * ·) k.delx inverse
  let moved ← Program.reduceAll .sum (k.gg.mulVec scaled)
  let sums ← Program.reduceAll .sum (k.gg.congruence inverse).entries
  let spread := Mat.ofEntries sums
  let block : Mat α m m := Mat.ofFn fun i l =>
    if i = l then spread[i][l] + k.diaglamyi[i] else spread[i][l]
  let rhs : Vector α m := Vector.ofFn fun i => k.dellamyi i - moved[i]
  match block.solveBordered? shares (-k.diagz) rhs k.delz with
  | none => .fail (.singularSystem "primal-dual multiplier block")
  | some (dlam, dz) =>
    let pulled := k.gg.transpose.mulVec dlam
    return { dx := Vector.ofFn fun j => -((k.delx[j] + pulled[j]) * inverse[j]), dlam, dz }

/-- Eliminates the multipliers and `y` and solves for the design variables and `z`. The rank has to own
the whole design. -/
def solveForDesign (k : NewtonBlocks α n m) (shares : Vector α m) :
    Program α (Cause α) (CoreDirection α n m) :=
  let inverse : Vector α m := k.diaglamyi.map fun d => 1 / d
  let sharesScaled : Vector α m := Vector.zipWith (· * ·) shares inverse
  let rhsScaled : Vector α m := Vector.ofFn fun i => k.dellamyi i * inverse[i]
  let pull := k.gg.transpose
  let spread := pull.congruence inverse
  let block : Mat α n n := Mat.ofFn fun j l =>
    if j = l then k.diagx[j] + spread[j][l] else spread[j][l]
  let edge : Vector α n := (pull.mulVec sharesScaled).map (- ·)
  let pulled := pull.mulVec rhsScaled
  let rhs : Vector α n := Vector.ofFn fun j => -(k.delx[j] + pulled[j])
  match block.solveBordered? edge (k.diagz + dot shares sharesScaled) rhs
      (-(k.delz - dot shares rhsScaled)) with
  | none => .fail (.singularSystem "primal-dual design block")
  | some (dx, dz) =>
    let pushed := k.gg.mulVec dx
    .pure
      { dx
        dlam := Vector.ofFn fun i => pushed[i] * inverse[i] - sharesScaled[i] * dz + rhsScaled[i]
        dz }

/-- The direction of all variables, by back-substitution into the eliminated rows. -/
def complete (k : NewtonBlocks α n m) (a : Approximation α n m) (w : KktPoint α n m) (epsi : α)
    (core : CoreDirection α n m) : KktPoint α n m :=
  let dy : Vector α m := Vector.ofFn fun i => (core.dlam[i] - k.dely[i]) / k.diagy[i]
  { x := core.dx
    y := dy
    z := core.dz
    lambda := core.dlam
    xsi := Vector.ofFn fun j =>
      -w.xsi[j] + epsi / a.limits.roomBelow w.x j -
        w.xsi[j] * core.dx[j] / a.limits.roomBelow w.x j
    eta := Vector.ofFn fun j =>
      -w.eta[j] + epsi / a.limits.roomAbove w.x j +
        w.eta[j] * core.dx[j] / a.limits.roomAbove w.x j
    mu := Vector.ofFn fun i => -w.mu[i] + epsi / w.y[i] - w.mu[i] * dy[i] / w.y[i]
    zet := -w.zet + epsi / w.z - w.zet * core.dz / w.z
    s := Vector.ofFn fun i =>
      -w.s[i] + epsi / w.lambda[i] - w.s[i] * core.dlam[i] / w.lambda[i] }

end NewtonBlocks

/-- The Newton direction at a point for a barrier parameter. -/
def Approximation.newtonDirection (a : Approximation α n m) (wt : Weights α m) (e : Execution)
    (w : KktPoint α n m) (epsi : α) : Program α (Cause α) (KktPoint α n m) := do
  let sums ← Program.reduceAll .sum (a.localSums w.x)
  let blocks := NewtonBlocks.ofPoint a wt w epsi sums
  let core ←
    if 1 < e.ranks ∨ m < a.nGlobal then blocks.solveForMultipliers wt.a
    else blocks.solveForDesign wt.a
  return blocks.complete a w epsi core

end MovingAsymptotes
