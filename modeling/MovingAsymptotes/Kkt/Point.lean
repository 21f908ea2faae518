import MovingAsymptotes.Linear.Vector
import MovingAsymptotes.Scalar

/-!
# Primal-dual points

The variables of the subproblem together with their multipliers. The groups `x`, `xsi` and `eta` belong to
the variables of a rank; the others belong to the constraints and are the same on every rank.
-/

namespace MovingAsymptotes

/-- Primal and dual variables of a subproblem with `m` constraints on `n` variables. -/
structure KktPoint (α : Type) (n m : Nat) where
  /-- The design variables. -/
  x : Vector α n
  /-- The artificial variables of the constraints. -/
  y : Vector α m
  /-- The artificial variable shared by all constraints. -/
  z : α
  /-- The multipliers of the constraints. -/
  lambda : Vector α m
  /-- The multipliers of the lower move limits. -/
  xsi : Vector α n
  /-- The multipliers of the upper move limits. -/
  eta : Vector α n
  /-- The multipliers of `0 ≤ y`. -/
  mu : Vector α m
  /-- The multiplier of `0 ≤ z`. -/
  zet : α
  /-- The slacks of the constraints. -/
  s : Vector α m

namespace KktPoint

variable {α : Type} [Scalar α] {n m : Nat}

/-- A point read at equal sizes. -/
def cast {α : Type} {n m n' m' : Nat} (hn : n = n') (hm : m = m') (w : KktPoint α n m) :
    KktPoint α n' m' :=
  hn ▸ hm ▸ w

/-- The vector `u + t * v`. -/
def along (u v : Vector α n) (t : α) : Vector α n := Vector.zipWith (fun a b => a + b * t) u v

/-- The point reached from `w` in a direction with a given step. -/
def stepped (w dir : KktPoint α n m) (step : α) : KktPoint α n m where
  x := along w.x dir.x step
  y := along w.y dir.y step
  z := w.z + dir.z * step
  lambda := along w.lambda dir.lambda step
  xsi := along w.xsi dir.xsi step
  eta := along w.eta dir.eta step
  mu := along w.mu dir.mu step
  zet := w.zet + dir.zet * step
  s := along w.s dir.s step

end KktPoint

end MovingAsymptotes
