import MovingAsymptotes.Proofs.Dual.Newton
import MovingAsymptotes.Proofs.InteriorPoint.Solver
import MovingAsymptotes.Proofs.OptimalityCriteria
import MovingAsymptotes.Proofs.Reduction.Replies
import MovingAsymptotes.Subproblem

/-!
# Designs within the move limits

Whatever the other ranks contribute, the design that a solver comes up with lies within the move limits
of its rank: the dual method clips its minimisers to them, the interior-point method bounds its steps by
them, and the optimality criteria clip their candidates to the window. Only the interior-point method
has to rely on the replies it gets, for the largest overshoot of all ranks.

* `Approximation.solve_ensures`: the solution of a subproblem.
* `CriteriaProblem.step_ensures`: the update with a single constraint.
-/

namespace MovingAsymptotes

variable {n m : Nat}

namespace BarrierMethod

variable {α σ : Type} [Scalar α] {method : BarrierMethod α σ} {A : Replies α} {I : σ → Prop}
  (step : ∀ s r e, I s → (method.advance s r e).Ensures A fun next => I next.state)
include step

lemma level_ensures (epsi : α) (steps : Nat) {p : Progress α σ} (hp : I p.state) :
    (method.level epsi steps p).Ensures A fun p' => I p'.state := by
  induction steps generalizing p with
  | zero => exact hp
  | succ steps ih =>
    unfold level
    split
    · exact (step _ _ _ hp).bind fun next hn => ih hn
    · exact hp

lemma levels_ensures (epsimin : α) (rounds : Nat) {epsi : α} {s : σ} {d : Diagnostics α} (hs : I s) :
    (method.levels epsimin rounds epsi s d).Ensures A fun out => I out.1 := by
  induction rounds generalizing epsi s d with
  | zero =>
    unfold levels
    split
    · trivial
    · exact hs
  | succ rounds ih =>
    unfold levels
    split
    · refine Program.ensures_bind fun residual => ?_
      exact (level_ensures step epsi method.cap hs).bind fun p hp => ih hp
    · exact hs

/-- What every Newton step keeps holds of the state that a solve ends with. -/
theorem solve_ensures (epsimin : α) (rounds : Nat) {start : σ} (hs : I start) :
    (method.solve epsimin rounds start).Ensures A fun out => I out.1 :=
  levels_ensures step epsimin rounds hs

end BarrierMethod

section Solve

variable {a : Approximation ℝ n m} {wt : Weights ℝ m} (ha : a.WellPosed)
include ha

lemma DualState.ofMultipliers_ensures (lambda eta : Vector ℝ m) :
    (DualState.ofMultipliers a wt lambda eta).Ensures .fair fun s => a.limits.Contains s.point.x :=
  Program.ensures_bind fun _ => DualPoint.ofMultipliers_contains ha

lemma DualState.advance_ensures (s : DualState ℝ n m) (epsi : ℝ) :
    (s.advance a wt epsi).Ensures .fair fun next => a.limits.Contains next.state.point.x := by
  unfold DualState.advance
  refine Program.ensures_bind fun hess => ?_
  cases s.direction? hess epsi with
  | none => trivial
  | some direction => exact (DualState.ofMultipliers_ensures ha _ _).bind fun next hn => hn

namespace Approximation

lemma solveDual_ensures (s : Settings ℝ) (e : Execution) :
    (a.solveDual wt s e).Ensures .fair fun sol => a.limits.Contains sol.point.x := by
  unfold solveDual
  split
  · trivial
  · refine (DualState.ofMultipliers_ensures ha _ _).bind fun start hs => ?_
    refine Program.Ensures.bind (BarrierMethod.solve_ensures
      (I := fun state : DualState ℝ n m => a.limits.Contains state.point.x)
      (fun state _ epsi _ => state.advance_ensures ha epsi) s.epsimin e.rounds hs) ?_
    exact fun out hout => hout

omit ha in
lemma inverseStep_ensures (w dir : KktPoint ℝ n m) :
    (a.inverseStep w dir).Ensures .fair (a.BoundsStep w dir) := by
  refine (Program.ensures_maxScalar _).bind fun spread hspread => ?_
  obtain ⟨hs, hshared⟩ := (foldl_larger_le_iff (sharedOvershoots w dir)).1 (le_refl _)
  obtain ⟨hone, hown⟩ := (foldl_larger_le_iff (a.localOvershoots w dir)).1 (hspread.trans hs)
  exact ⟨hone, hown, hshared⟩

omit ha in
/-- A line search only shortens the step. -/
lemma backtrack_ensures {A : Replies ℝ} (w dir : KktPoint ℝ n m) (epsi norm : ℝ) (more : Nat) {step : ℝ}
    (hs : 0 < step) : (a.backtrack wt w dir epsi norm more step).Ensures A fun next =>
      ∃ t, 0 < t ∧ t ≤ step ∧ next.1 = w.stepped dir t := by
  have trial : ∀ t, (a.trial wt w dir epsi t).Ensures A fun next => next.1 = w.stepped dir t :=
    fun t => Program.ensures_bind fun residual => rfl
  induction more generalizing step with
  | zero => exact (trial step).mono fun next hn => ⟨step, hs, le_refl step, hn⟩
  | succ more ih =>
    unfold backtrack
    refine (trial step).bind fun next hn => ?_
    dsimp only
    split
    · exact ⟨step, hs, le_refl step, hn⟩
    · refine (ih (show 0 < step * 0.5 by linarith)).mono ?_
      rintro _ ⟨t, ht, hle, hn⟩
      exact ⟨t, ht, by linarith, hn⟩

omit ha in
lemma interiorStep_ensures {w : KktPoint ℝ n m} (hi : w.Interior a) (s : Settings ℝ) (e : Execution)
    (residual : Residual ℝ) (epsi : ℝ) :
    (a.interiorStep wt s e w residual epsi).Ensures .fair fun next => next.state.Interior a := by
  unfold interiorStep
  refine Program.ensures_bind fun dir => ?_
  refine (inverseStep_ensures w dir).bind fun inverse hb => ?_
  refine (backtrack_ensures w dir epsi residual.norm _ (one_div_pos.2 hb.pos)).bind fun next hn => ?_
  obtain ⟨t, ht, hle, hn⟩ := hn
  have hone : t * inverse ≤ 1 := (le_div_iff₀ hb.pos).1 hle
  have interior := hi.stepped hb ht hone
  rw [← hn] at interior
  exact interior

lemma solveInterior_ensures (s : Settings ℝ) (e : Execution) :
    (a.solveInterior wt s e).Ensures .fair fun sol => sol.point.Interior a := by
  unfold solveInterior
  split
  · trivial
  · refine Program.Ensures.bind (BarrierMethod.solve_ensures (I := fun w : KktPoint ℝ n m => w.Interior a)
      (fun w residual epsi hi => interiorStep_ensures hi s e residual epsi) s.epsimin e.rounds
      (interiorStart_interior ha)) ?_
    exact fun out hout => hout

/-- The solution of a subproblem lies within the move limits, and that of the interior-point method lies
strictly within them. -/
theorem solve_ensures (s : Settings ℝ) (e : Execution) :
    (a.solve wt s e).Ensures .fair fun sol => a.limits.Contains sol.point.x ∧
      (s.method = .primalDual → sol.point.Interior a) := by
  unfold solve
  cases s.method with
  | dualNewton => exact (solveDual_ensures ha s e).mono fun sol hsol => ⟨hsol, nofun⟩
  | primalDual => exact (solveInterior_ensures ha s e).mono fun sol hsol => ⟨hsol.contains, fun _ => hsol⟩

end Approximation

end Solve

namespace CriteriaProblem

variable {p : CriteriaProblem ℝ n} {s : CriteriaSettings ℝ}

lemma entry_window_alfa (j : Fin n) :
    (p.window s).alfa[j] = max (p.x[j] - s.moveLimit * p.bounds.range j) p.bounds.lower[j] := by
  unfold window
  rw [entry_ofFn, larger_eq_max]

lemma entry_window_beta (j : Fin n) :
    (p.window s).beta[j] = min (p.x[j] + s.moveLimit * p.bounds.range j) p.bounds.upper[j] := by
  unfold window
  rw [entry_ofFn, smaller_eq_min]

/-- The window lies around the design and within the bounds. -/
theorem window_contains (hb : p.bounds.Proper) (hx : p.bounds.Contains p.x) (hs : s.Valid) :
    (p.window s).Contains p.x := by
  intro j
  have move := mul_pos hs.moveLimit_pos (hb.range_pos j)
  rw [entry_window_alfa, entry_window_beta]
  exact ⟨max_le (by linarith) (hx j).1, le_min (by linarith) (hx j).2⟩

lemma candidate_contains {limits : MoveLimits ℝ n} (hl : ∀ j : Fin n, limits.alfa[j] ≤ limits.beta[j])
    (lambda : ℝ) : limits.Contains (p.candidate s limits lambda) := by
  intro j
  unfold candidate
  rw [entry_ofFn, clamp_eq]
  exact ⟨le_max_right _ _, max_le (min_le_right _ _) (hl j)⟩

lemma bisect_ensures {A : Replies ℝ} {limits : MoveLimits ℝ n}
    (hl : ∀ j : Fin n, limits.alfa[j] ≤ limits.beta[j]) (rounds : Nat) {b : Bracket ℝ n}
    (hb : limits.Contains b.x) : (p.bisect s limits rounds b).Ensures A fun b' => limits.Contains b'.x := by
  induction rounds generalizing b with
  | zero =>
    unfold bisect
    split
    · trivial
    · exact hb
  | succ rounds ih =>
    unfold bisect
    split
    · exact Program.ensures_bind fun violation => ih (candidate_contains hl _)
    · exact hb

/-- The update with a single constraint records its window and ends within it. -/
theorem step_ensures {A : Replies ℝ} (hb : p.bounds.Proper) (hx : p.bounds.Contains p.x) (hs : s.Valid)
    (rounds : Nat) :
    (p.step s rounds).Ensures A fun step =>
      step.limits = p.window s ∧ (p.window s).Contains step.x := by
  have hw := window_contains hb hx hs
  have hl := fun j => (hw j).1.trans (hw j).2
  unfold step
  refine Program.ensures_bind fun violation => ?_
  split
  · split
    · trivial
    · exact ⟨rfl, candidate_contains hl _⟩
  · exact (bisect_ensures hl rounds (candidate_contains hl _)).bind fun b hb => ⟨rfl, hb⟩

end CriteriaProblem

end MovingAsymptotes
