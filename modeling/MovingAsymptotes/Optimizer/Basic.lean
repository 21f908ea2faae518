import MovingAsymptotes.Convergence
import MovingAsymptotes.OptimalityCriteria
import MovingAsymptotes.Subproblem

/-!
# The optimizer

The state that one rank keeps between updates: its part of the design with the two designs before it, the
bounds and asymptotes, the weights and settings, and the record of the last update. The number of
variables of a rank never changes and is part of the type.
-/

namespace MovingAsymptotes

/-- A subproblem solution with the number of constraints it was found for. -/
structure RecordedSolution (α : Type) (n : Nat) where
  m : Nat
  solution : Solution α n m

/-- The state of a rank with `n` of the design variables. -/
structure Optimizer (α : Type) (n : Nat) where
  /-- The number of variables over all ranks. -/
  nGlobal : Nat
  m : Nat
  /-- The design and the two designs before it. -/
  history : History α n
  bounds : Bounds α n
  /-- The asymptotes of the last subproblem. -/
  asymptotes : Asymptotes α n
  limits : MoveLimits α n
  weights : WeightDraft α
  settings : Settings α
  /-- The number of completed updates. -/
  iteration : Nat
  /-- The signals of the last update. -/
  convergence : Convergence α
  /-- The solution of the last update, if that solved a subproblem. -/
  lastSolution : Option (RecordedSolution α n)
  /-- The result of the last update, if that had a single constraint. -/
  lastCriteria : Option (CriteriaStep α n)

variable {α : Type} [Scalar α] {n : Nat}

namespace Optimizer

/-- The state before anything is configured: bounds zero and one, and the design in the middle. -/
def initial (n nGlobal : Nat) : Optimizer α n :=
  let bounds : Bounds α n := ⟨Vector.replicate n 0, Vector.replicate n 1⟩
  { nGlobal
    m := 0
    history := .still (Vector.replicate n 0.5)
    bounds
    asymptotes := .atBounds bounds
    limits := .atBounds bounds
    weights := .default 0
    settings := .default
    iteration := 0
    convergence := .initial
    lastSolution := none
    lastCriteria := none }

/-- The initial state of a rank with `n` variables, if the ranks have `nGlobal` of them together. -/
def create (n nGlobal : Nat) : Program α (Cause α) (Optimizer α n) := do
  let total ← Program.reduceScalar .sum (n : α)
  if Agrees total (nGlobal : α) then return initial n nGlobal
  else .fail (.dimensionMismatch "global design length" nGlobal (Scalar.whole total))

/-- The optimizer with other settings, if they are valid. -/
def withSettings (o : Optimizer α n) (s : Settings α) : Except (Cause α) (Optimizer α n) := do
  s.validate.mapError .invalidSetting
  return { o with settings := s }

/-- The optimizer for `m` constraints. The weights go back to their defaults only if they belong to
another number of constraints. -/
def setConstraintCount (o : Optimizer α n) (m : Nat) : Optimizer α n :=
  if m ≠ o.m ∨ o.weights.size ≠ m then { o with m, weights := .default m } else o

/-- The optimizer with edited weights. They are checked by the next update. -/
def editWeights (o : Optimizer α n) (edit : WeightDraft α → WeightDraft α) : Optimizer α n :=
  { o with weights := edit o.weights }

/-- The optimizer with other bounds, if there is a pair for each variable and every variable has a range
between them. The asymptotes and the move limits start from the bounds again; the design stays, even where
it lies outside. -/
def setBounds (o : Optimizer α n) (lower upper : Array α) : Except (Cause α) (Optimizer α n) := do
  let lower ← checkedLength "lower bounds" n lower
  let upper ← checkedLength "upper bounds" n upper
  let bounds : Bounds α n := ⟨lower, upper⟩
  match bounds.firstInvalid? with
  | some j => .error (.invalidBounds j lower[j] upper[j])
  | none =>
    return { o with bounds, asymptotes := .atBounds bounds, limits := .atBounds bounds }

/-- The optimizer with another design and no history, if the design lies within the bounds. -/
def setDesign (o : Optimizer α n) (x : Array α) : Except (Cause α) (Optimizer α n) := do
  let x ← checkedLength "design" n x
  match o.bounds.firstOutside? x with
  | some j => .error (.designOutOfBounds j x[j] o.bounds.lower[j] o.bounds.upper[j])
  | none => return { o with history := .still x }

end Optimizer

end MovingAsymptotes
