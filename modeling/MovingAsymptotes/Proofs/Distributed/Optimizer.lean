import MovingAsymptotes.Proofs.Distributed.Dual
import MovingAsymptotes.Proofs.Distributed.InteriorPoint
import MovingAsymptotes.Proofs.Distributed.OptimalityCriteria
import MovingAsymptotes.Proofs.Optimizer.Evaluation

/-!
# Distributed updates

The state of a rank is its part of the state of a single rank. An update and a check of the optimality
conditions keep it so, with the same answer on every rank. Only the smallest multiplier on record is a
rank's own.

* `Optimizer.simulates_update`: an update.
* `Optimizer.simulates_kktCheck`: a check of the optimality conditions.
-/

namespace MovingAsymptotes

section Part

variable {α : Type} {n m k : Nat}

variable (ι : Fin k → Fin n) (seen : Option α)

/-- The part of an evaluation; the values of the constraints belong to every part. -/
def Evaluation.part (d : Evaluation α n) : Evaluation α k :=
  ⟨pick ι d.dfdx, d.g, pick ι d.dgdx⟩

/-- The part of a recorded solution, with the smallest multiplier that was seen there. -/
def RecordedSolution.part (found : RecordedSolution α n) : RecordedSolution α k where
  m := found.m
  solution := ⟨found.solution.point.part ι, found.solution.diagnostics.withSeen seen⟩

/-- The part of the result of an update. -/
def UpdateStep.part : UpdateStep α n → UpdateStep α k
  | .criteria step => .criteria (step.part ι)
  | .subproblem asymptotes limits found =>
    .subproblem (asymptotes.part ι) (limits.part ι) (found.part ι seen)

/-- The part of a state, with the smallest multiplier that was seen there. -/
def Optimizer.part (o : Optimizer α n) : Optimizer α k where
  nGlobal := o.nGlobal
  m := o.m
  history := o.history.part ι
  bounds := o.bounds.part ι
  asymptotes := o.asymptotes.part ι
  limits := o.limits.part ι
  weights := o.weights
  settings := o.settings
  iteration := o.iteration
  convergence := o.convergence
  lastSolution := o.lastSolution.map fun found => found.part ι seen
  lastCriteria := o.lastCriteria.map fun step => step.part ι

lemma KktPoint.cast_part {m' : Nat} (h : m = m') (w : KktPoint α n m) :
    (w.part ι).cast rfl h = (w.cast rfl h).part ι := by
  subst h
  rfl

lemma Optimizer.lastSolution_part (o : Optimizer α n) :
    (o.part ι seen).lastSolution = o.lastSolution.map fun found => found.part ι seen := rfl

variable [Scalar α]

namespace Optimizer

lemma commit_part (o : Optimizer α n) (step : UpdateStep α n) (change : α) (seen' : Option α) :
    (o.part ι seen).commit (step.part ι seen') change = (o.commit step change).part ι seen' := by
  cases step with
  | criteria step => rfl
  | subproblem asymptotes limits found => rfl

lemma setConstraintCount_part (o : Optimizer α n) (m : Nat) :
    (o.part ι seen).setConstraintCount m = (o.setConstraintCount m).part ι seen := by
  unfold setConstraintCount
  change (if m ≠ o.m ∨ o.weights.size ≠ m then _ else _) = _
  split <;> rfl

lemma initial_part (nGlobal : Nat) :
    (initial n nGlobal).part ι seen = (initial k nGlobal : Optimizer α k) := by
  have same : ∀ a : α, pick ι (Vector.replicate n a) = Vector.replicate k a := by
    intro a
    refine vector_ext fun j => ?_
    rw [entry_pick, entry_replicate, entry_replicate]
  unfold initial Optimizer.part History.part History.still Bounds.part Asymptotes.part Asymptotes.atBounds
    MoveLimits.part MoveLimits.atBounds
  simp only [same]
  rfl

end Optimizer

end Part

variable {N R m : Nat} (δ : Distribution N R)

lemma simulates_designChange (x previous : Vector ℝ N) (b : Bounds ℝ N) :
    Program.Simulates (designChange x previous b)
      (fun r => designChange (pick (δ.place r) x) (pick (δ.place r) previous) (b.part (δ.place r)))
      fun b c => ∀ r, c r = b := by
  refine Program.simulates_maxScalar fun c => ?_
  simp only [localChange_le_iff, Bounds.range_part, entry_pick, forall_and]
  rw [δ.forall_place_iff (p := fun j => |(x[j] - previous[j]) / b.range j| ≤ c)]
  exact and_congr_left' ⟨fun h _ => h, fun h => h 0⟩

namespace Approximation

/-- The ranks solve the subproblem as a single rank does, by either method. -/
theorem simulates_solve {a : Approximation ℝ N m} {wt : Weights ℝ m} (ha : a.WellPosed) (hw : wt.Valid)
    (s : Settings ℝ) (rounds : Nat) : Program.Simulates (a.solve wt s (.single rounds))
      (fun r => (a.part (δ.place r)).solve wt s { ranks := R + 1, rounds })
      fun sol c => ∃ seen : Fin (R + 1) → Option ℝ, ∀ r,
        c r = ⟨sol.point.part (δ.place r), sol.diagnostics.withSeen (seen r)⟩ := by
  unfold solve
  cases s.method with
  | dualNewton => exact (simulates_solveDual δ ha hw s rounds).mono fun _ _ h => h.1
  | primalDual => exact (simulates_solveInterior δ ha hw s rounds).mono fun _ _ h => h.1

end Approximation

/-- The ranks find the residual of the problem itself, or find alike that the point or the weights do
not fit it. -/
lemma Evaluation.simulates_residual (d : Evaluation ℝ N) (x : Vector ℝ N) (bounds : Bounds ℝ N)
    (draft : WeightDraft ℝ) (w : KktPoint ℝ N m) :
    Program.Simulates (d.sensitivities.residual x bounds draft w)
      (fun r => (d.part (δ.place r)).sensitivities.residual (pick (δ.place r) x) (bounds.part (δ.place r))
        draft (w.part (δ.place r)))
      fun b c => ∀ r, c r = b := by
  by_cases hm : m = d.g.size
  · cases hwt : draft.leading? d.g.size with
    | none =>
      rw [d.residual_of_unfit hm hwt, funext fun r => (d.part (δ.place r)).residual_of_unfit hm hwt]
      exact Program.simulates_fail _
    | some wt =>
      have fit : ∀ r, (d.part (δ.place r)).sensitivities.residual (pick (δ.place r) x)
          (bounds.part (δ.place r)) draft (w.part (δ.place r)) =
            (d.gradients.part (δ.place r)).residual (pick (δ.place r) x) (bounds.part (δ.place r)) wt
              ((w.cast rfl hm).part (δ.place r)) := by
        intro r
        rw [← KktPoint.cast_part]
        exact (d.part (δ.place r)).residual_of_fit hm hwt
      rw [d.residual_of_fit hm hwt, funext fit]
      exact Gradients.simulates_residual δ d.gradients x bounds wt (w.cast rfl hm)
  · rw [d.residual_of_mismatch hm, funext fun r => (d.part (δ.place r)).residual_of_mismatch hm]
    exact Program.simulates_fail _

namespace Optimizer

variable (o : Optimizer ℝ N) (seen : Fin (R + 1) → Option ℝ) (rounds : Nat)

lemma simulates_criteriaStep (d : Gradients ℝ N m) (hm : 0 < m) :
    Program.Simulates (o.criteriaStep (.single rounds) d hm)
      (fun r => (o.part (δ.place r) (seen r)).criteriaStep { ranks := R + 1, rounds }
        (d.part (δ.place r)) hm)
      fun step c => ∀ r, c r = step.part (δ.place r) := by
  have column : ∀ r, (pick (δ.place r) d.dgdx).map (fun row => row.get ⟨0, hm⟩) =
      pick (δ.place r) (d.dgdx.map fun row => row.get ⟨0, hm⟩) := by
    intro r
    refine vector_ext fun j => ?_
    simp only [entry_map, entry_pick]
  have same := CriteriaProblem.simulates_step δ (o.criteriaProblem d hm) o.settings.oc rounds
  unfold CriteriaProblem.part criteriaProblem at same
  simp only [← column] at same
  exact same

section Subproblem

variable {o} {wt : Weights ℝ m} (hb : o.bounds.Proper) (hx : o.bounds.Contains o.history.current)
  (hs : o.settings.Valid) (hw : wt.Valid)
include hb hx hs hw

lemma simulates_subproblemStep (d : Gradients ℝ N m) :
    Program.Simulates (o.subproblemStep (.single rounds) d wt)
      (fun r => (o.part (δ.place r) (seen r)).subproblemStep { ranks := R + 1, rounds }
        (d.part (δ.place r)) wt)
      fun step c => ∃ seen' : Fin (R + 1) → Option ℝ, ∀ r, c r = step.part (δ.place r) (seen' r) := by
  have asymptotes : ∀ r, (o.part (δ.place r) (seen r)).asymptotes.advance
      ((o.part (δ.place r) (seen r)).iteration + 1) (o.part (δ.place r) (seen r)).history
      (o.part (δ.place r) (seen r)).bounds (o.part (δ.place r) (seen r)).settings =
        o.nextAsymptotes.part (δ.place r) :=
    fun r => (Asymptotes.part_advance (δ.place r) _ _ _ _ _).symm
  have limits : ∀ r, (o.nextAsymptotes.part (δ.place r)).moveLimits
      (o.part (δ.place r) (seen r)).history.current (o.part (δ.place r) (seen r)).bounds
      (o.part (δ.place r) (seen r)).settings =
        (o.nextAsymptotes.moveLimits o.history.current o.bounds o.settings).part (δ.place r) :=
    fun r => (Asymptotes.part_moveLimits (δ.place r) _ _ _ _).symm
  unfold subproblemStep
  simp only [asymptotes, limits]
  refine ((Approximation.simulates_build δ o.history.current d o.nextAsymptotes _ o.nGlobal
    o.settings).mapError _).bind fun a a' hd ha => ?_
  -- What a single rank builds around a design within its bounds is well posed.
  have hwell : a.WellPosed := ((subproblem_returns hb hx hs d).mapError _).of_serial hd
  simp only [ha]
  refine ((Approximation.simulates_solve δ hwell hw o.settings rounds).mapError _).bind
    fun sol sol' _ hsol => ?_
  obtain ⟨seen', hseen⟩ := hsol
  simp only [hseen]
  exact Program.simulates_pure ⟨seen', fun _ => rfl⟩

/-- The ranks make the update that the number of constraints calls for. -/
lemma simulates_updateStep (d : Gradients ℝ N m) (hm : 0 < m) :
    Program.Simulates (o.step (.single rounds) d hm wt)
      (fun r => (o.part (δ.place r) (seen r)).step { ranks := R + 1, rounds } (d.part (δ.place r)) hm wt)
      fun step c => ∃ seen' : Fin (R + 1) → Option ℝ, ∀ r, c r = step.part (δ.place r) (seen' r) := by
  unfold step
  by_cases h : m < 2
  · simp only [h, if_true]
    refine ((simulates_criteriaStep δ o seen rounds d hm).mapError _).bind fun step step' _ hstep => ?_
    simp only [hstep]
    exact Program.simulates_pure ⟨fun _ => none, fun _ => rfl⟩
  · simp only [h, if_false]
    exact (simulates_subproblemStep δ seen rounds hb hx hs hw d).mapError _

lemma simulates_attemptUpdate (d : Gradients ℝ N m) (hm : 0 < m) :
    Program.Simulates (o.attemptUpdate (.single rounds) d hm wt)
      (fun r => (o.part (δ.place r) (seen r)).attemptUpdate { ranks := R + 1, rounds }
        (d.part (δ.place r)) hm wt)
      fun b c => ∃ seen' : Fin (R + 1) → Option ℝ, ∀ r, c r = (b.1.part (δ.place r) (seen' r), b.2) := by
  have design : ∀ (step : UpdateStep ℝ N) r (q : Option ℝ),
      (step.part (δ.place r) q).x = pick (δ.place r) step.x := by
    intro step r q
    cases step <;> rfl
  unfold attemptUpdate
  refine (simulates_updateStep δ seen rounds hb hx hs hw d hm).bind fun step step' _ hstep => ?_
  obtain ⟨seen', hseen⟩ := hstep
  simp only [hseen, design]
  refine ((simulates_designChange δ step.x o.history.current o.bounds).mapError _).bind
    fun change change' _ hchange => ?_
  simp only [hchange]
  exact Program.simulates_pure ⟨seen', fun _ => rfl⟩

end Subproblem

/-- The ranks make an update as a single rank does: their states stay parts of its state, and they
answer alike. -/
theorem simulates_update {ε : Type} {o : Optimizer ℝ N} (hb : o.bounds.Proper)
    (hx : o.bounds.Contains o.history.current) (hs : o.settings.Valid) (d : Evaluation ℝ N) :
    Program.Simulates (o.update (.single rounds) d.sensitivities : Program ℝ ε _)
      (fun r => (o.part (δ.place r) (seen r)).update { ranks := R + 1, rounds }
        (d.part (δ.place r)).sensitivities)
      fun b c => ∃ seen' : Fin (R + 1) → Option ℝ, ∀ r, c r = (b.1.part (δ.place r) (seen' r), b.2) := by
  by_cases hm : d.g.size = 0
  · exact Program.simulates_of_eq_pure (update_of_empty _ hm)
      (fun r => update_of_empty _ hm) ⟨seen, fun _ => rfl⟩
  have counted : ∀ r, (o.part (δ.place r) (seen r)).setConstraintCount d.g.size =
      (o.setConstraintCount d.g.size).part (δ.place r) (seen r) :=
    fun r => setConstraintCount_part (δ.place r) (seen r) o d.g.size
  -- The weights are the same on every rank, and so is what is said of them.
  have same : ∀ r, ((o.part (δ.place r) (seen r)).setConstraintCount d.g.size).weights.validate d.g.size =
      (o.setConstraintCount d.g.size).weights.validate d.g.size := fun r => by rw [counted]; rfl
  cases hwt : (o.setConstraintCount d.g.size).weights.validate d.g.size with
  | error cause =>
    refine Program.simulates_of_eq_pure (update_of_refused _ hm d.matched hwt)
      (fun r => update_of_refused _ hm (d.part (δ.place r)).matched ((same r).trans hwt)) ⟨seen, fun r => ?_⟩
    exact congrArg (·, _) (counted r)
  | ok wt =>
    have hw := (WeightDraft.validate_eq_ok_iff.1 hwt).2
    rw [update_of_accepted _ hm d.matched hwt,
      funext fun r => update_of_accepted _ hm (d.part (δ.place r)).matched ((same r).trans hwt)]
    have counted' : ∀ r, (o.part (δ.place r) (seen r)).setConstraintCount (d.part (δ.place r)).g.size =
        (o.setConstraintCount d.g.size).part (δ.place r) (seen r) := counted
    simp only [counted']
    refine (simulates_attemptUpdate δ seen rounds ?_ (contains_counted hx _) ?_ hw d.gradients
      (Nat.pos_of_ne_zero hm)).attempt.bind fun result result' _ hresult => ?_
    · rwa [setConstraintCount_bounds]
    · rwa [setConstraintCount_settings]
    cases result with
    | error failure =>
      simp only [hresult]
      exact Program.simulates_pure ⟨seen, fun _ => rfl⟩
    | ok found =>
      obtain ⟨found', hfound, seen', hseen⟩ := hresult
      simp only [hfound, hseen]
      refine Program.simulates_pure ⟨seen', fun r => ?_⟩
      exact congrArg (·, Except.ok found.2) (commit_part (δ.place r) (seen r) _ found.1 found.2 (seen' r))

/-- The ranks check the optimality conditions as a single rank does. -/
theorem simulates_kktCheck {ε : Type} (d : Evaluation ℝ N) :
    Program.Simulates (o.kktCheck d.sensitivities : Program ℝ ε _)
      (fun r => (o.part (δ.place r) (seen r)).kktCheck (d.part (δ.place r)).sensitivities)
      fun b c => ∀ r, c r = b := by
  unfold kktCheck
  simp only [lastSolution_part]
  cases o.lastSolution with
  | none => exact Program.simulates_pure fun _ => rfl
  | some found =>
    simp only [Option.map_some]
    refine ((d.simulates_residual δ o.history.current o.bounds o.weights
      found.solution.point).mapError _).attempt.mono fun b c h => ?_
    cases b with
    | error failure => exact h
    | ok residual =>
      obtain ⟨c', hc, hsame⟩ := h
      intro r
      rw [hc, hsame]

lemma simulates_create :
    Program.Simulates (create N N) (fun r => create (δ.size r) N) fun (b : Optimizer ℝ N) c =>
      b = initial N N ∧ ∀ r, c r = initial (δ.size r) N := by
  unfold create
  refine (Program.simulates_sumScalar δ.sum_size.symm).bind fun total total' ht hs => ?_
  have htotal : total = N := by cases ht; rfl
  subst htotal
  simp only [hs, agrees_iff, if_true]
  exact Program.simulates_pure ⟨rfl, fun _ => rfl⟩

end Optimizer

end MovingAsymptotes
