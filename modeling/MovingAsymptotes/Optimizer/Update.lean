import MovingAsymptotes.Optimizer.Basic

/-!
# Updates

One outer iteration. With a single constraint the design follows the optimality criteria; with more, the
asymptotes move, a subproblem is built around the design, and its solution is the next design. A failed
update leaves the design, its history, the asymptotes and the iteration count as they were; the number of
constraints is taken over before the work begins.
-/

namespace MovingAsymptotes

variable {α ε : Type} [Scalar α] {n m : Nat}

/-- The result of an update before it becomes part of the state. -/
inductive UpdateStep (α : Type) (n : Nat) where
  | criteria (step : CriteriaStep α n)
  /-- An update by a subproblem, with the asymptotes and move limits it was built from. -/
  | subproblem (asymptotes : Asymptotes α n) (limits : MoveLimits α n)
      (found : RecordedSolution α n)

/-- The new design. -/
def UpdateStep.x : UpdateStep α n → Vector α n
  | .criteria step => step.x
  | .subproblem _ _ found => found.solution.point.x

namespace Optimizer

/-- The update with a single constraint. -/
def criteriaStep (o : Optimizer α n) (e : Execution) (d : Gradients α n m) (hm : 0 < m) :
    Program α (Cause α) (CriteriaStep α n) :=
  let problem : CriteriaProblem α n :=
    { x := o.history.current
      bounds := o.bounds
      dfdx := d.dfdx
      g := d.g.get ⟨0, hm⟩
      dgdx := d.dgdx.map fun row => row.get ⟨0, hm⟩ }
  problem.step o.settings.oc e.rounds

/-- The update by a subproblem. -/
def subproblemStep (o : Optimizer α n) (e : Execution) (d : Gradients α n m) (wt : Weights α m) :
    Program α (Failure α) (UpdateStep α n) := do
  let asymptotes := o.asymptotes.advance (o.iteration + 1) o.history o.bounds o.settings
  let limits := asymptotes.moveLimits o.history.current o.bounds o.settings
  let a ← (Approximation.build o.history.current d asymptotes limits o.nGlobal o.settings).mapError
    fun cause => { during := [], cause }
  let solution ← (a.solve wt o.settings e).mapError
    fun cause => { during := [.subproblemSolve o.settings.method], cause }
  return .subproblem asymptotes limits { m, solution }

/-- The update that the number of constraints calls for. -/
def step (o : Optimizer α n) (e : Execution) (d : Gradients α n m) (hm : 0 < m)
    (wt : Weights α m) : Program α (Failure α) (UpdateStep α n) :=
  if m < 2 then do
    let step ← (o.criteriaStep e d hm).mapError
      fun cause => { during := [.criteriaUpdate (o.iteration + 1)], cause }
    return .criteria step
  else
    (o.subproblemStep e d wt).mapError (Failure.within (.subproblemUpdate (o.iteration + 1)))

/-- The state once an update is complete. -/
def commit (o : Optimizer α n) (step : UpdateStep α n) (change : α) : Optimizer α n :=
  let o := { o with iteration := o.iteration + 1, history := o.history.push step.x }
  match step with
  | .criteria step =>
    { o with
      limits := step.limits
      convergence := { change, residualNorm := 0, residualMax := 0 }
      lastSolution := none
      lastCriteria := some step }
  | .subproblem asymptotes limits found =>
    { o with
      asymptotes
      limits
      convergence :=
        { change
          residualNorm := found.solution.diagnostics.residualNorm
          residualMax := found.solution.diagnostics.residualMax }
      lastSolution := some found
      lastCriteria := none }

/-- An update and the largest relative step of the design, without effect on the state. -/
def attemptUpdate (o : Optimizer α n) (e : Execution) (d : Gradients α n m) (hm : 0 < m)
    (wt : Weights α m) : Program α (Failure α) (UpdateStep α n × α) := do
  let step ← o.step e d hm wt
  let change ← (designChange step.x o.history.current o.bounds).mapError
    fun cause => { during := [], cause }
  return (step, change)

/-- One outer iteration with the function values and gradients at the current design: the state after
it, and the largest relative step of the design or the failure. -/
def update (o : Optimizer α n) (e : Execution) (s : Sensitivities α) :
    Program α ε (Optimizer α n × Except (Failure α) α) :=
  let refused (o : Optimizer α n) (cause : Cause α) :
      Program α ε (Optimizer α n × Except (Failure α) α) :=
    .pure (o, .error { during := [], cause })
  if hm : s.g.size = 0 then refused o .noConstraints
  else match s.matched n with
    | .error cause => refused o cause
    | .ok d =>
      let o := o.setConstraintCount s.g.size
      match o.weights.validate s.g.size with
      | .error cause => refused o cause
      | .ok wt => do
        match ← (o.attemptUpdate e d (Nat.pos_of_ne_zero hm) wt).attempt with
        | .error failure => return (o, .error failure)
        | .ok (step, change) => return (o.commit step change, .ok change)

/-- The residual of the problem itself at the current design, with the multipliers of the last
subproblem solution. -/
def kktCheck (o : Optimizer α n) (s : Sensitivities α) :
    Program α ε (Except (Failure α) (Residual α)) :=
  match o.lastSolution with
  | none => .pure (.error { during := [], cause := .noSubproblemSolution })
  | some found =>
    ((s.residual o.history.current o.bounds o.weights found.solution.point).mapError
      fun cause => ({ during := [.kktCheck], cause } : Failure α)).attempt

end Optimizer

end MovingAsymptotes
