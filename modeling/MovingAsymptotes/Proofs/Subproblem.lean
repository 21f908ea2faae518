import MovingAsymptotes.Proofs.Dual.Recovery
import MovingAsymptotes.Proofs.InteriorPoint.Settled

/-!
# Subproblem solves over the reals

Either backend solves every well-posed subproblem: wherever a solve comes through, nothing that it
divides by is zero and the next step is found, and after finitely many levels it ends.

* `Approximation.dualSafe`, `Approximation.interiorSafe`: no step of a solve fails.
* `Approximation.solve_ends`: a solve ends with a solution.
* `Approximation.solve_certified`: how accurate the solution is.
-/

namespace MovingAsymptotes.Approximation

variable {n m : Nat} {a : Approximation ℝ n m} {wt : Weights ℝ m} {s : Settings ℝ}

/-- Wherever a solve of the dual comes through, it divides by nothing that is zero, and the Newton
system has a solution. -/
def DualSafe (a : Approximation ℝ n m) (wt : Weights ℝ m) (s : Settings ℝ) : Prop :=
  ∀ start, (DualState.ofMultipliers a wt (Vector.replicate m DualState.initialLambda)
      (Vector.replicate m 1)).serial = .done start →
    ∀ epsi state r, (dualMethod a wt s).Visited s.epsimin start epsi state r →
      state.Divisible a ∧ ∃ next, (state.advance a wt epsi).serial = .done next

/-- Wherever an interior-point solve comes through, it divides by nothing that is zero, the Newton
system has a solution, and the trial steps along it are safe as well. -/
def InteriorSafe (a : Approximation ℝ n m) (wt : Weights ℝ m) (s : Settings ℝ) (e : Execution) : Prop :=
  ∀ epsi w r, (a.interiorMethod wt s e).Visited s.epsimin (a.interiorStart wt) epsi w r →
    w.Divisible a wt epsi ∧ (∃ next, (a.interiorStep wt s e w r epsi).serial = .done next) ∧
      ∀ dir inverse, (a.newtonDirection wt e w epsi).serial = .done dir →
        (a.inverseStep w dir).serial = .done inverse →
          inverse ≠ 0 ∧ ∀ k : Nat, (w.stepped dir (1 / inverse * 0.5 ^ k)).Divisible a wt epsi

theorem dualSafe (ha : a.WellPosed) (hw : wt.Valid) (s : Settings ℝ) : a.DualSafe wt s := by
  intro start hstart epsi state r hv
  have hs := dualStart_returns.of_serial hstart
  have hk := (dualMethod_maintains ha hw s hs).of_visited hv
  obtain ⟨next, hn, -⟩ := DualState.advance_returns ha hw hk.interior epsi
  exact ⟨hk.interior.divisible ha, next, hn⟩

theorem interiorSafe (ha : a.WellPosed) (hw : wt.Valid) (s : Settings ℝ) (e : Execution) :
    a.InteriorSafe wt s e := by
  intro epsi w r hv
  have hk := (interiorMethod_maintains ha hw s e).of_visited hv
  obtain ⟨next, hn, -⟩ := interiorStep_returns ha hw hk.interior s e r epsi
  refine ⟨hk.interior.divisible ha hw epsi, ⟨next, hn⟩, fun dir inverse _ hi => ?_⟩
  have hb := inverseStep_returns.of_serial hi
  exact ⟨hb.pos.ne', fun k => (hk.interior.halved hb k).divisible ha hw epsi⟩

/-- A solve ends with a solution once it may take enough rounds. -/
theorem solve_ends (ha : a.WellPosed) (hw : wt.Valid) (hm : m ≠ 0) (hs : s.Valid) {k : Nat}
    (hk : s.Allows k) :
    ∃ sol, ∀ rounds, k ≤ rounds → (a.solve wt s (.single rounds)).serial = .done sol := by
  unfold solve
  cases s.method with
  | dualNewton =>
    obtain ⟨state, d, -, -, hd, -⟩ := solveDual_ends ha hw hm hs hk
    exact ⟨_, hd⟩
  | primalDual =>
    obtain ⟨w, d, -, -, hd, -⟩ := solveInterior_ends ha hw hm hs hk
    exact ⟨_, hd⟩

/-- What is certified of a solution if no barrier level was left on its cap. -/
def Certified (a : Approximation ℝ n m) (wt : Weights ℝ m) (e : ℝ) (pt : KktPoint ℝ n m) : Method → Prop
  | .dualNewton => ∃ feasible slack, DualState.Certified a wt e pt feasible slack
  | .primalDual => ∃ r, (a.residual wt pt 0).serial = .done r ∧ r.max ≤ 1.9 * e

/-- The accuracy of a solution: the last barrier parameter `e` is at most ten times the one at which the
solve stops, and unless a level was left on its cap it bounds how far the solution fails the optimality
conditions. -/
theorem solve_certified {draft : WeightDraft ℝ} (ha : a.WellPosed) (hw : draft.validate m = .ok wt)
    (hm : 1 ≤ m) (hs : s.validate = .ok ()) :
    ∃ rounds₀ sol e, (∀ rounds, rounds₀ ≤ rounds → (a.solve wt s (.single rounds)).serial = .done sol) ∧
      0 < sol.diagnostics.barrierLevels ∧ e = 0.1 ^ (sol.diagnostics.barrierLevels - 1) ∧
      s.epsimin < e ∧ e ≤ 10 * s.epsimin ∧
      (sol.diagnostics.cappedLevels = 0 → a.Certified wt e sol.point s.method) := by
  have hv := (Settings.validate_eq_ok_iff s).1 hs
  have hw := (WeightDraft.validate_eq_ok_iff.1 hw).2
  obtain ⟨k, hk⟩ := hv.exists_allows
  unfold solve
  cases s.method with
  | dualNewton =>
    obtain ⟨state, d, e, r, hd, hE⟩ := solveDual_ends ha hw (by omega) hv (hk k (le_refl k))
    refine ⟨k, _, e, hd, hE.levels_lt, ?_, hE.lt, hE.le, fun hc => ?_⟩
    · rw [hE.parameter, one_mul]
      rfl
    · have hr := hE.settled hc
      rw [hE.maintained.residual] at hr
      exact DualState.toPoint_certified ha hw hE.maintained.interior hr
  | primalDual =>
    obtain ⟨w, d, e, r, hd, hE⟩ := solveInterior_ends ha hw (by omega) hv (hk k (le_refl k))
    refine ⟨k, _, e, hd, hE.levels_lt, ?_, hE.lt, hE.le, fun hc => ?_⟩
    · rw [hE.parameter, one_mul]
      rfl
    · have hr : (a.residualOf wt w e).max ≤ 0.9 * e := by
        rw [← hE.maintained.residual]
        exact not_lt.1 (hE.settled hc)
      refine ⟨_, a.residual_serial wt w 0, ?_⟩
      have := a.residualOf_zero_max_le wt w hE.maintained.parameter_pos.le hr
      linarith

/-- A solve of the sample that is over after a single level. The level is not left on its cap, and the middle
of the box is certified for the parameter `1`. -/
theorem solve_certified_between_poles : ∃ rounds₀ sol,
    (∀ rounds, rounds₀ ≤ rounds →
      ((sample (3 / 2)).solve mildWeights singleLevel (.single rounds)).serial = .done sol) ∧
    sol.diagnostics.barrierLevels = 1 ∧ sol.diagnostics.cappedLevels = 0 ∧ sol.point.x = .singleton (5 / 4) ∧
      (sample (3 / 2)).Certified mildWeights 1 sol.point .primalDual := by
  obtain ⟨rounds₀, sol, e, hd, -, he, -, -, hc⟩ :=
    solve_certified (sample_wellPosed (3 / 2)) mildWeights_validate (le_refl 1) singleLevel_validate
  have hsol := (hd (rounds₀ + 1) (Nat.le_succ _)).symm.trans (sample_solve (Nat.le_add_left 1 _))
  cases hsol
  have uncapped : (Diagnostics.initial.afterLevel ((sample (3 / 2)).residualOf mildWeights
      ((sample (3 / 2)).interiorStart mildWeights) 1) 1).cappedLevels = 0 :=
    (Nat.zero_add _).trans (if_neg sample_settled.2.2)
  obtain rfl : e = 1 := he.trans (pow_zero _)
  exact ⟨rounds₀, _, hd, rfl, uncapped, congrArg KktPoint.x sample_interiorStart, hc uncapped⟩

end MovingAsymptotes.Approximation
