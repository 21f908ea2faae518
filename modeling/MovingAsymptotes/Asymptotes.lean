import MovingAsymptotes.Linear.Vector
import MovingAsymptotes.Settings

/-!
# Moving asymptotes and move limits

Each design variable has a lower and an upper asymptote, between which its approximations are defined.
They start at a fixed share of the variable's range. From the third iteration on they follow the history
of the variable: further away under a steady trend, closer under oscillation, at the same distance where
the history stands still. The move limits keep an iterate clear of the asymptotes, within the largest
move, and within the bounds.
-/

namespace MovingAsymptotes

/-- Lower and upper bounds of `n` variables. -/
structure Bounds (α : Type) (n : Nat) where
  lower : Vector α n
  upper : Vector α n

/-- Lower and upper asymptotes of `n` variables. -/
structure Asymptotes (α : Type) (n : Nat) where
  low : Vector α n
  upp : Vector α n

/-- The box in which the next iterate is sought. -/
structure MoveLimits (α : Type) (n : Nat) where
  alfa : Vector α n
  beta : Vector α n

/-- The current design and the two before it. -/
structure History (α : Type) (n : Nat) where
  current : Vector α n
  previous : Vector α n
  beforePrevious : Vector α n

/-- The history of a design that has just been set. -/
def History.still {α : Type} {n : Nat} (x : Vector α n) : History α n := ⟨x, x, x⟩

/-- The history once `x` is the current design. -/
def History.push {α : Type} {n : Nat} (h : History α n) (x : Vector α n) : History α n :=
  ⟨x, h.current, h.previous⟩

variable {α : Type} [Scalar α] {n : Nat}

/-- The distance between the bounds of a variable. -/
def Bounds.range (b : Bounds α n) (j : Fin n) : α := b.upper[j] - b.lower[j]

/-- The first variable whose lower bound is not below its upper bound. -/
def Bounds.firstInvalid? (b : Bounds α n) : Option (Fin n) :=
  (List.finRange n).find? fun j => ¬ b.lower[j] < b.upper[j]

/-- The first variable of a design that lies outside the bounds. -/
def Bounds.firstOutside? (b : Bounds α n) (x : Vector α n) : Option (Fin n) :=
  (List.finRange n).find? fun j => ¬ (b.lower[j] ≤ x[j] ∧ x[j] ≤ b.upper[j])

/-- The factor for the distance of the asymptotes: the product of the last two moves tells whether the
variable keeps its direction or turns. -/
def Settings.trendFactor (s : Settings α) (trend : α) : α :=
  if 0 < trend then s.asyincr else if trend < 0 then s.asydecr else 1

namespace Asymptotes

/-- The asymptotes of a design without history, at the bounds. -/
def atBounds (b : Bounds α n) : Asymptotes α n := ⟨b.lower, b.upper⟩

/-- The asymptotes of the first two iterations, at the initial share of the range on either side of
the design. -/
def initial (x : Vector α n) (b : Bounds α n) (s : Settings α) : Asymptotes α n where
  low := Vector.ofFn fun j => x[j] - s.asyinit * b.range j
  upp := Vector.ofFn fun j => x[j] + s.asyinit * b.range j

/-- The product of the last two moves of a variable. -/
def trend (h : History α n) (j : Fin n) : α :=
  (h.current[j] - h.previous[j]) * (h.previous[j] - h.beforePrevious[j])

/-- The asymptotes of a later iteration. Their distance from the previous design is scaled by the trend
and carried over to the current design, within a hundredth and ten times the range. -/
def adapted (asy : Asymptotes α n) (h : History α n) (b : Bounds α n) (s : Settings α) :
    Asymptotes α n where
  low := Vector.ofFn fun j =>
    let low := h.current[j] - s.trendFactor (trend h j) * (h.previous[j] - asy.low[j])
    smaller (larger low (h.current[j] - 10.0 * b.range j)) (h.current[j] - 0.01 * b.range j)
  upp := Vector.ofFn fun j =>
    let upp := h.current[j] + s.trendFactor (trend h j) * (asy.upp[j] - h.previous[j])
    larger (smaller upp (h.current[j] + 10.0 * b.range j)) (h.current[j] + 0.01 * b.range j)

/-- The asymptotes of an iteration, counted from one. -/
def advance (asy : Asymptotes α n) (iteration : Nat) (h : History α n) (b : Bounds α n)
    (s : Settings α) : Asymptotes α n :=
  if iteration < 3 then initial h.current b s else asy.adapted h b s

/-- The move limits around a design. -/
def moveLimits (asy : Asymptotes α n) (x : Vector α n) (b : Bounds α n) (s : Settings α) :
    MoveLimits α n where
  alfa := Vector.ofFn fun j =>
    let clear := asy.low[j] + s.albefa * (x[j] - asy.low[j])
    larger (larger clear (x[j] - s.mmamove * b.range j)) b.lower[j]
  beta := Vector.ofFn fun j =>
    let clear := asy.upp[j] - s.albefa * (asy.upp[j] - x[j])
    smaller (smaller clear (x[j] + s.mmamove * b.range j)) b.upper[j]

end Asymptotes

/-- The move limits of a design without history, at the bounds. -/
def MoveLimits.atBounds (b : Bounds α n) : MoveLimits α n := ⟨b.lower, b.upper⟩

end MovingAsymptotes
