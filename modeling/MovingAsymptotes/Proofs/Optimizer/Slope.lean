import MovingAsymptotes.Proofs.Optimizer.Log
import MovingAsymptotes.Proofs.Positivity

/-!
# Updates against the slope

The approximation keeps the gradients of the problem at the design, so the Lagrangian of the subproblem
rises or falls there as that of the problem does. Its minimiser between the poles lies on the falling side
of the design, and the move limits, which meet the design only where the bounds do, can hold a variable
back but never turn it round. So with the dual method every variable moves against its slope in the
Lagrangian of the problem, for the multipliers that the solve ends with.

All this holds of a rank in any group, whatever the other ranks contribute.

* `MovesAgainst`: a step of a variable against its slope.
* `DualPoint.ofMultipliers_movesAgainst`: the step to a minimiser of the Lagrangian.
* `Optimizer.update_moves_against_slope`: the step of an update.
-/

namespace MovingAsymptotes

variable {n m : Nat}

/-- A variable between two bounds moves from `x` to `x'` against its slope. It stays where it is only if the
slope vanishes, or if it is at the bound that it would have to cross. -/
structure MovesAgainst (slope lower upper x x' : ℝ) : Prop where
  falls : 0 < slope → x' < x ∨ x' = x ∧ x = lower
  rises : slope < 0 → x < x' ∨ x' = x ∧ x = upper
  rests : slope = 0 → x' = x

section Clamp

variable {slope lo hi lower upper v x x' : ℝ}

/-- A value on the falling side of `x` stays there when it is moved into an interval around `x`. -/
lemma clamp_movesAgainst (hlo : lo ≤ x) (hhi : x ≤ hi) (below : v < x ↔ 0 < slope)
    (above : x < v ↔ slope < 0) : MovesAgainst slope lo hi x (clamp lo hi v) := by
  rw [clamp_eq]
  constructor
  case falls =>
    intro hs
    have hv : min v hi < x := (min_le_left v hi).trans_lt (below.2 hs)
    rcases hlo.eq_or_lt with heq | hlt
    · exact .inr ⟨by rw [max_eq_right (heq ▸ hv.le), heq], heq.symm⟩
    · exact .inl (max_lt hv hlt)
  case rises =>
    intro hs
    have hv : x < v := above.2 hs
    rcases hhi.eq_or_lt with heq | hlt
    · exact .inr ⟨by rw [min_eq_right (heq ▸ hv.le), max_eq_left (heq ▸ hlo), heq], heq⟩
    · exact .inl (lt_max_of_lt_left (lt_min hv hlt))
  case rests =>
    intro hs
    have hv : v = x := le_antisymm (not_lt.1 fun h => (above.1 h).ne hs) (not_lt.1 fun h => (below.1 h).ne' hs)
    rw [hv, min_eq_left hhi, max_eq_left hlo]

/-- An interval may be replaced by another one that meets `x` at the same ends. -/
lemma MovesAgainst.within (h : MovesAgainst slope lo hi x x') (hlo : lo = x ↔ lower = x)
    (hhi : hi = x ↔ upper = x) : MovesAgainst slope lower upper x x' where
  falls hs := (h.falls hs).imp_right fun held => ⟨held.1, (hlo.1 held.2.symm).symm⟩
  rises hs := (h.rises hs).imp_right fun held => ⟨held.1, (hhi.1 held.2.symm).symm⟩
  rests := h.rests

end Clamp

/-- The slope of the Lagrangian of a problem in direction of variable `j`. -/
noncomputable def Gradients.slope (d : Gradients ℝ n m) (lambda : Vector ℝ m) (j : Fin n) : ℝ :=
  d.dfdx[j] + ∑ i : Fin m, d.dgdx[j][i] * lambda[i]

section Parts

variable {a : Approximation ℝ n m} {w : Weights ℝ m} {asy : Asymptotes ℝ n} {limits : MoveLimits ℝ n}
  {b : Bounds ℝ n} {x : Vector ℝ n} {s : Settings ℝ} {A : Replies ℝ}

/-- From a design within the move limits, every variable of the minimiser moves against the slope that the
Lagrangian has at the design. -/
theorem DualPoint.ofMultipliers_movesAgainst {lambda : Vector ℝ m} (ha : a.WellPosed)
    (hx : a.limits.Contains x) (hl : ∀ i : Fin m, 0 ≤ lambda[i]) (j : Fin n) :
    MovesAgainst (a.lagrangianGradient x (a.lagrangian lambda))[j] a.limits.alfa[j] a.limits.beta[j] x[j]
      (ofMultipliers a w lambda).x[j] := by
  have hc : (ofMultipliers a w lambda).x[j] = clamp a.limits.alfa[j] a.limits.beta[j]
      (unclamped a (a.lagrangian lambda) j) := entry_ofFn _ j
  obtain ⟨below, above⟩ := unclamped_lt_iff (ha.plam_pos hl j) (ha.qlam_pos hl j) (ha.above_pos hx j)
    (ha.below_pos hx j)
  rw [hc]
  exact clamp_movesAgainst (hx j).1 (hx j).2 below above

/-- Whatever the sums over all ranks are, the Lagrangian has the slopes of the problem at the design. -/
lemma Approximation.build_ensures_slope (d : Gradients ℝ n m) (nGlobal : Nat) (ha : asy.Encloses x) :
    (build x d asy limits nGlobal s).Ensures A fun a => ∀ lambda j,
      (a.lagrangianGradient x (a.lagrangian lambda))[j] = d.slope lambda j :=
  Program.ensures_bind fun _ => lagrangianGradient_around d limits nGlobal ha

/-- Whatever replies a rank gets, it ends a solve of the dual with positive multipliers and the point that
belongs to them. -/
lemma Approximation.solveDual_ensures_positive (e : Execution) :
    (a.solveDual w s e).Ensures A fun sol =>
      ∃ state : DualState ℝ n m, state.Positive a w ∧ sol.point = state.toPoint a w := by
  have step (state : DualState ℝ n m) (r : Residual ℝ) (epsi : ℝ) (hs : state.Positive a w) :
      ((dualMethod a w s).advance state r epsi).Ensures A fun next => next.state.Positive a w :=
    (hs.advance epsi).mono fun next hn => hn.1
  unfold solveDual
  split
  · trivial
  · refine dualStart_positive.bind fun start hstart => ?_
    exact (BarrierMethod.solve_ensures step s.epsimin e.rounds hstart).bind
      fun out hout => ⟨out.1, hout, rfl⟩

/-- A subproblem around a design, solved through its dual, moves every variable against the slope of the
problem. -/
lemma Approximation.build_solveDual_ensures (d : Gradients ℝ n m) (nGlobal : Nat) (ha : asy.Encloses x)
    (hl : limits.Nested asy b x) (hs : s.Valid) (w : Weights ℝ m) (e : Execution) :
    (build x d asy limits nGlobal s).Ensures A fun a => (a.solveDual w s e).Ensures A fun sol =>
      ∀ j, MovesAgainst (d.slope sol.point.lambda j) b.lower[j] b.upper[j] x[j] sol.point.x[j] := by
  refine ((build_ensures d nGlobal ha hl hs).and (build_ensures_slope d nGlobal ha)).mono ?_
  rintro a ⟨⟨hwell, rfl⟩, hslope⟩
  refine (solveDual_ensures_positive e).mono ?_
  rintro sol ⟨state, hstate, hpoint⟩ j
  have hx : a.limits.Contains x := fun j => ⟨hl.alfa_le j, hl.le_beta j⟩
  have step := DualPoint.ofMultipliers_movesAgainst (w := w) hwell hx (fun i => (hstate.lambda_pos i).le) j
  rw [← hstate.point, hslope] at step
  rw [hpoint]
  exact step.within (hl.alfa_eq_iff j) (hl.beta_eq_iff j)

end Parts

namespace Optimizer

variable {o o' : Optimizer ℝ n} {A : Replies ℝ}

/-- Between the states before and after an update, every variable moves against its slope in the Lagrangian
of the problem, for the multipliers of the solution that the update found. -/
def MovesAgainstSlope (o : Optimizer ℝ n) (d : Gradients ℝ n m) (o' : Optimizer ℝ n) : Prop :=
  ∃ sol : Solution ℝ n m, o'.lastSolution = some ⟨m, sol⟩ ∧ ∀ j : Fin n,
    MovesAgainst (d.slope sol.point.lambda j) o.bounds.lower[j] o.bounds.upper[j] o.history.current[j]
      o'.history.current[j]

lemma MovesAgainstSlope.of_counted {d : Gradients ℝ n m} {k : Nat}
    (h : (o.setConstraintCount k).MovesAgainstSlope d o') : o.MovesAgainstSlope d o' := by
  obtain ⟨sol, hsol, hmoves⟩ := h
  rw [setConstraintCount_bounds, setConstraintCount_history] at hmoves
  exact ⟨sol, hsol, hmoves⟩

/-- Where no constraint has a slope, every variable moves against that of the objective. -/
lemma MovesAgainstSlope.of_flat {d : Gradients ℝ n m} (h : o.MovesAgainstSlope d o')
    (hg : ∀ (j : Fin n) (i : Fin m), d.dgdx[j][i] = 0) (j : Fin n) :
    MovesAgainst d.dfdx[j] o.bounds.lower[j] o.bounds.upper[j] o.history.current[j] o'.history.current[j] := by
  obtain ⟨sol, -, hmoves⟩ := h
  have slope : d.slope sol.point.lambda j = d.dfdx[j] :=
    add_eq_left.2 (Finset.sum_eq_zero fun i _ => mul_eq_zero_of_left (hg j i) _)
  exact slope ▸ hmoves j

/-- Without gradients there are no slopes, and every variable stays where it is. -/
lemma MovesAgainstSlope.rests {d : Gradients ℝ n m} (h : o.MovesAgainstSlope d o')
    (hf : ∀ j : Fin n, d.dfdx[j] = 0) (hg : ∀ (j : Fin n) (i : Fin m), d.dgdx[j][i] = 0) :
    o'.history.current = o.history.current :=
  vector_ext fun j => (h.of_flat hg j).rests (hf j)

section Step

variable (ho : o.Configured) (hx : o.bounds.Contains o.history.current)
  (hmethod : o.settings.method = .dualNewton)
include ho hx hmethod

lemma subproblemStep_moves (e : Execution) (d : Gradients ℝ n m) (wt : Weights ℝ m) :
    (o.subproblemStep e d wt).Ensures A fun step =>
      ∀ change, o.MovesAgainstSlope d (o.commit step change) := by
  have ha : o.nextAsymptotes.Encloses o.history.current := nextAsymptotes_encloses ho.bounds ho.settings
  have hl := Asymptotes.moveLimits_nested ha ho.bounds hx ho.settings
  refine ((Approximation.build_solveDual_ensures d o.nGlobal ha hl ho.settings wt e).mapError _).bind
    fun a hsolve => ?_
  have hmethod : a.solve wt o.settings e = a.solveDual wt o.settings e := by
    simp only [Approximation.solve, hmethod]
  rw [hmethod]
  exact (hsolve.mapError _).bind fun sol hmoves change => ⟨sol, rfl, hmoves⟩

lemma attemptUpdate_moves (e : Execution) (d : Gradients ℝ n m) (hm : 0 < m) (h2 : 2 ≤ m)
    (wt : Weights ℝ m) : (o.attemptUpdate e d hm wt).Ensures A fun found =>
      ∀ change, o.MovesAgainstSlope d (o.commit found.1 change) := by
  have hstep : o.step e d hm wt = (o.subproblemStep e d wt).mapError
      (Failure.within (.subproblemUpdate (o.iteration + 1))) := if_neg h2.not_gt
  refine Program.Ensures.bind (Q := fun step => ∀ change, o.MovesAgainstSlope d (o.commit step change)) ?_ ?_
  · rw [hstep]
    exact (subproblemStep_moves ho hx hmethod e d wt).mapError _
  · exact fun step hmoves => Program.ensures_bind fun _ => hmoves

/-- An update that succeeds moves every variable against its slope. -/
lemma update_moves {ε : Type} (e : Execution) {s : Sensitivities ℝ} (hm : 2 ≤ s.g.size) :
    (o.update e s : Program ℝ ε _).Ensures A fun next => ∀ change, next.2 = .ok change →
      ∃ d : Gradients ℝ n s.g.size, s.matched n = .ok d ∧ o.MovesAgainstSlope d next.1 := by
  refine update_ensures_of_attempt (Q := fun next => ∃ d, s.matched n = .ok d ∧ o.MovesAgainstSlope d next)
    fun d wt hpos hd _ => ?_
  refine (attemptUpdate_moves (ho.counted _) (contains_counted hx _) ?_ e d hpos hm wt).mono
    fun found hfound => ?_
  · rwa [setConstraintCount_settings]
  · exact ⟨d, hd, (hfound found.2).of_counted⟩

end Step

/-- With the dual method a successful update moves every variable against its slope in the Lagrangian of the
problem, whatever the history, the weights and the values of the constraints, and whatever the other ranks
contribute. In particular it leaves a design without slopes in place. -/
theorem update_moves_against_slope {ε : Type} {e : Execution} {s : Sensitivities ℝ} {change : ℝ}
    (hb : o.bounds.Proper) (hx : o.bounds.Contains o.history.current) (hs : o.settings.validate = .ok ())
    (hmethod : o.settings.method = .dualNewton) (hm : 2 ≤ s.g.size)
    (h : (o.update e s : Program ℝ ε _).Ends .any (.done (o', .ok change))) :
    ∃ d : Gradients ℝ n s.g.size, s.matched n = .ok d ∧ o.MovesAgainstSlope d o' ∧
      ((∀ j : Fin n, d.dfdx[j] = 0) → (∀ (j : Fin n) (i : Fin s.g.size), d.dgdx[j][i] = 0) →
        o'.history.current = o.history.current) := by
  have ho : o.Configured := ⟨hb, (Settings.validate_eq_ok_iff _).1 hs⟩
  obtain ⟨d, hd, moves⟩ := (update_moves ho hx hmethod e hm).of_ends h change rfl
  exact ⟨d, hd, moves, moves.rests⟩

/-- Two variables under two constraints that neither of them matters to: the one on which the objective
depends falls, and the other one stays. -/
theorem update_lowers_first : ∃ (e : Execution) (o' : Optimizer ℝ 2) (change : ℝ),
    ((initial 2 2).update e ⟨#[1, 0], #[-1, 0], ⟨2, 2, #v[#v[0, 0], #v[0, 0]]⟩⟩ : Program ℝ Empty _).serial =
      .done (o', .ok change) ∧
    o'.history.current[(0 : Fin 2)] < 1 / 2 ∧ o'.history.current[(1 : Fin 2)] = 1 / 2 := by
  let d : Evaluation ℝ 2 := ⟨#v[1, 0], #[-1, 0], #v[#v[0, 0], #v[0, 0]]⟩
  have ho : (initial 2 2 : Optimizer ℝ 2).Configured := initial_configured 2 2
  obtain ⟨k, step, change, wt, updated, -⟩ := exists_update_serial (ε := Empty) (d := d) ho.bounds
    (initial_contains 2 2) ho.settings (le_refl 2) nofun
  have ends := Program.ends_of_serial (A := .any) (fun _ _ _ => trivial) updated
  refine ⟨.single k, _, change, updated, ?_⟩
  obtain ⟨_, hd, moves, -⟩ := update_moves_against_slope ho.bounds (initial_contains 2 2)
    Settings.validate_default rfl (le_refl 2) ends
  cases hd.symm.trans d.matched
  have start (j : Fin 2) : (initial 2 2 : Optimizer ℝ 2).history.current[j] = 1 / 2 := by
    rw [initial_current]
    norm_num
  have flat (j i : Fin 2) : d.gradients.dgdx[j][i] = (0 : ℝ) := by
    fin_cases j <;> fin_cases i <;> rfl
  constructor
  · have first := (moves.of_flat flat 0).falls one_pos
    rw [start, initial_lower] at first
    exact first.resolve_right fun held => by norm_num at held
  · exact ((moves.of_flat flat 1).rests rfl).trans (start 1)

end Optimizer

end MovingAsymptotes
