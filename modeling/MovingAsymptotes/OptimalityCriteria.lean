import MovingAsymptotes.Asymptotes
import MovingAsymptotes.Linear.Vector
import MovingAsymptotes.Reduction.Program

/-!
# Optimality criteria

The update for a single constraint. A multiplier determines a candidate design in closed form, clipped to
a window around the current design; the multiplier is found by bisection between zero and an upper end so
that the candidate meets the linearised constraint. If even the upper end leaves the constraint violated,
bisection has nothing to find, and the candidate there is taken or, if the settings say so, refused.
-/

namespace MovingAsymptotes

/-- A problem with a single constraint, linearised at the current design. -/
structure CriteriaProblem (α : Type) (n : Nat) where
  x : Vector α n
  bounds : Bounds α n
  dfdx : Vector α n
  g : α
  dgdx : Vector α n

/-- The result of an update. -/
structure CriteriaStep (α : Type) (n : Nat) where
  x : Vector α n
  /-- The window that the new design was clipped to. -/
  limits : MoveLimits α n
  /-- The multiplier that the new design belongs to. -/
  multiplier : α
  bisections : Nat
  /-- Whether the upper end of the bracket met the constraint. -/
  bracketed : Bool

/-- A bracket of the multiplier, with the last multiplier tried and its candidate. -/
structure Bracket (α : Type) (n : Nat) where
  lo : α
  /-- The upper end, which meets the constraint. -/
  hi : α
  /-- The last multiplier tried. -/
  multiplier : α
  x : Vector α n
  bisections : Nat

variable {α : Type} [Scalar α] {n : Nat}

namespace CriteriaProblem

/-- The window around the current design that a candidate is clipped to. -/
def window (p : CriteriaProblem α n) (s : CriteriaSettings α) : MoveLimits α n where
  alfa := Vector.ofFn fun j => larger (p.x[j] - s.moveLimit * p.bounds.range j) p.bounds.lower[j]
  beta := Vector.ofFn fun j => smaller (p.x[j] + s.moveLimit * p.bounds.range j) p.bounds.upper[j]

/-- The candidate for a multiplier. The distance of a variable from its lower bound is scaled by a power
of the ratio between the two gradients. -/
def candidate (p : CriteriaProblem α n) (s : CriteriaSettings α) (limits : MoveLimits α n)
    (lambda : α) : Vector α n :=
  Vector.ofFn fun j =>
    let ratio := Scalar.abs (-p.dfdx[j] / (lambda * p.dgdx[j]))
    clamp limits.alfa[j] limits.beta[j]
      (p.bounds.lower[j] + (p.x[j] - p.bounds.lower[j]) * Scalar.pow ratio s.eta)

/-- The value of the linearised constraint at a design, over all ranks. -/
def violation (p : CriteriaProblem α n) (x : Vector α n) : Program α (Cause α) α := do
  let moved ← Program.reduceScalar .sum (dot p.dgdx (Vector.zipWith (· - ·) x p.x))
  return p.g + moved

/-- Halves the bracket until it is no wider than the tolerance. -/
def bisect (p : CriteriaProblem α n) (s : CriteriaSettings α) (limits : MoveLimits α n) :
    Nat → Bracket α n → Program α (Cause α) (Bracket α n)
  | 0, b => if s.bracketTolerance < b.hi - b.lo then .unfinished else .pure b
  | rounds + 1, b =>
    if s.bracketTolerance < b.hi - b.lo then do
      let middle := 0.5 * (b.lo + b.hi)
      let x := p.candidate s limits middle
      let violation ← p.violation x
      p.bisect s limits rounds
        { lo := if 0 < violation then middle else b.lo
          hi := if 0 < violation then b.hi else middle
          multiplier := middle
          x
          bisections := b.bisections + 1 }
    else .pure b

/-- The update with a single constraint. -/
def step (p : CriteriaProblem α n) (s : CriteriaSettings α) (rounds : Nat) :
    Program α (Cause α) (CriteriaStep α n) := do
  let limits := p.window s
  let x := p.candidate s limits s.lambdaUpper
  let violation ← p.violation x
  if 0 < violation then
    if s.requireBracket then .fail (.unbracketedMultiplier s.lambdaUpper violation)
    else return { x, limits, multiplier := s.lambdaUpper, bisections := 0, bracketed := false }
  else
    let b ← p.bisect s limits rounds
      { lo := 0, hi := s.lambdaUpper, multiplier := s.lambdaUpper, x, bisections := 0 }
    return { x := b.x, limits, multiplier := b.multiplier, bisections := b.bisections,
             bracketed := true }

end CriteriaProblem

end MovingAsymptotes
