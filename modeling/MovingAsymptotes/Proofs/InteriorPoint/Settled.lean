import MovingAsymptotes.Proofs.InteriorPoint.Solver
import MovingAsymptotes.Proofs.Kkt.Optimality
import MovingAsymptotes.Subproblem

/-!
# Interior-point solves that take no step

The start of the interior-point method has the complementarity that belongs to the parameter `1`. If the other
conditions nearly hold there too, the first level takes no step, and there is no other level if the last
parameter is at least a tenth. Then the solve returns its start.

* `Approximation.SettledAtStart`: the solves that take no step.
* `Approximation.solve_settled`: what such a solve returns.
-/

namespace MovingAsymptotes

/-- A barrier method whose start is good enough for its only level returns the start. -/
lemma BarrierMethod.solve_settled {σ : Type} {method : BarrierMethod ℝ σ} {start : σ} {res : Residual ℝ}
    {epsimin : ℝ} (hres : (method.residual start 1).serial = .done res) (settled : ¬ res.Exceeds 1)
    (hone : epsimin < 1) (htenth : 0.1 ≤ epsimin) {rounds : Nat} (hr : 1 ≤ rounds) :
    (method.solve epsimin rounds start).serial = .done (start, Diagnostics.initial.afterLevel res 1) := by
  obtain ⟨rounds, rfl⟩ := Nat.exists_eq_add_of_le' hr
  have rests (steps : Nat) (p : Progress ℝ σ) (hp : p.residual = res) : method.level 1 steps p = .pure p := by
    cases steps with
    | zero => rfl
    | succ steps => exact if_neg (hp ▸ settled)
  have stops (s : σ) (d : Diagnostics ℝ) : method.levels epsimin rounds (1 * 0.1) s d = .pure (s, d) := by
    have small : ¬ epsimin < 1 * 0.1 := by linarith
    cases rounds with
    | zero => exact if_neg small
    | succ rounds => exact if_neg small
  show (method.levels epsimin (rounds + 1) 1 start .initial).serial = _
  unfold levels
  rw [if_pos hone, Program.serial_bind, hres]
  show (method.level 1 method.cap ⟨start, res, .initial⟩ >>= _).serial = _
  rw [rests _ _ rfl]
  exact congrArg Program.serial (stops start _)

namespace Approximation

variable {n m : Nat} {a : Approximation ℝ n m} {wt : Weights ℝ m} {s : Settings ℝ}

/-- A solve that takes no step: the interior-point method goes through the level of the parameter `1` only, and
its start is good enough for it. -/
def SettledAtStart (a : Approximation ℝ n m) (wt : Weights ℝ m) (s : Settings ℝ) : Prop :=
  s.method = .primalDual ∧ 0.1 ≤ s.epsimin ∧ ¬ (a.residualOf wt (a.interiorStart wt) 1).Exceeds 1

/-- A solve that takes no step returns its start, with the record of a single level. -/
theorem solve_settled (hm : m ≠ 0) (hone : s.epsimin < 1) (h : a.SettledAtStart wt s) {rounds : Nat}
    (hr : 1 ≤ rounds) : (a.solve wt s (.single rounds)).serial =
      .done ⟨a.interiorStart wt, Diagnostics.initial.afterLevel (a.residualOf wt (a.interiorStart wt) 1) 1⟩ := by
  obtain ⟨hmethod, htenth, settled⟩ := h
  let method := a.interiorMethod wt s (.single rounds)
  have start : (method.residual (a.interiorStart wt) 1).serial = .done (a.residualOf wt (a.interiorStart wt) 1) :=
    residual_serial ..
  have run := BarrierMethod.solve_settled start settled hone htenth hr
  unfold solve solveInterior
  simp only [hmethod, hm, if_false]
  show (method.solve s.epsimin rounds (a.interiorStart wt) >>= _).serial = _
  rw [Program.serial_bind, run]
  rfl

section Sample

/-- Weights that the start of the sample is in balance with. -/
noncomputable def mildWeights : Weights ℝ 1 := ⟨1, 1, .singleton 0, .singleton 1, .singleton 1⟩

/-- The usual parameters, but for a single level of the interior-point method. -/
noncomputable def singleLevel : Settings ℝ := { Settings.default with epsimin := 0.5, method := .primalDual }

lemma mildWeights_validate : (⟨1, 1, #[0], #[1], #[1]⟩ : WeightDraft ℝ).validate 1 = .ok mildWeights := by
  refine WeightDraft.validate_eq_ok_iff.2 ⟨rfl, one_pos, fun i => ?_⟩
  rw [Fin.eq_zero i]
  exact one_pos

lemma singleLevel_valid : singleLevel.Valid := by
  have usual := (Settings.validate_eq_ok_iff _).1 Settings.validate_default
  exact { usual with
    epsimin_pos := show (0 : ℝ) < 0.5 by norm_num
    epsimin_lt_one := show (0.5 : ℝ) < 1 by norm_num }

lemma singleLevel_validate : singleLevel.validate = .ok () :=
  (Settings.validate_eq_ok_iff _).2 singleLevel_valid

/-- A vector of length one is known by its entry. -/
lemma eq_singleton {v : Vector ℝ 1} {c : ℝ} (h : v[(0 : Fin 1)] = c) : v = .singleton c := by
  refine vector_ext fun j => ?_
  rw [Fin.eq_zero j]
  exact h

/-- The start of the sample: the middle of the box, with multipliers of at least one. -/
lemma sample_interiorStart : (sample (3 / 2)).interiorStart mildWeights =
    ⟨.singleton (5 / 4), .singleton 1, 1, .singleton 1, .singleton (4 / 3), .singleton (4 / 3), .singleton 1, 1,
      .singleton 1⟩ := by
  let w := (sample (3 / 2)).interiorStart mildWeights
  have x : w.x = .singleton (5 / 4) := by
    have entry : w.x[(0 : Fin 1)] = (1 / 2 + 2) * 0.5 := entry_zipWith ..
    refine eq_singleton (entry.trans ?_)
    norm_num
  have xsi : w.xsi = .singleton (4 / 3) := by
    have entry : w.xsi[(0 : Fin 1)] = larger (1 / (w.x[(0 : Fin 1)] - 1 / 2)) 1 := entry_ofFn _ 0
    rw [x, larger_eq_max] at entry
    refine eq_singleton (entry.trans ?_)
    show max (1 / (5 / 4 - 1 / 2)) 1 = (4 / 3 : ℝ)
    norm_num
  have eta : w.eta = .singleton (4 / 3) := by
    have entry : w.eta[(0 : Fin 1)] = larger (1 / (2 - w.x[(0 : Fin 1)])) 1 := entry_ofFn _ 0
    rw [x, larger_eq_max] at entry
    refine eq_singleton (entry.trans ?_)
    show max (1 / (2 - 5 / 4)) 1 = (4 / 3 : ℝ)
    norm_num
  have mu : w.mu = .singleton 1 := by
    have entry : w.mu[(0 : Fin 1)] = larger (0.5 * 1) 1 := entry_map ..
    rw [larger_eq_max] at entry
    refine eq_singleton (entry.trans ?_)
    norm_num
  calc w = ⟨w.x, .singleton 1, 1, .singleton 1, w.xsi, w.eta, w.mu, 1, .singleton 1⟩ := rfl
    _ = _ := by rw [x, xsi, eta, mu]

lemma sample_settled : (sample (3 / 2)).SettledAtStart mildWeights singleLevel := by
  refine ⟨rfl, show (0.1 : ℝ) ≤ 0.5 by norm_num, not_lt.2 ?_⟩
  rw [sample_interiorStart]
  refine (residualOf_max_le_iff ..).2 ⟨by norm_num, ?_⟩
  constructor
  case stationary =>
    intro j
    rw [Fin.eq_zero j, entry_lagrangianGradient, entry_plam, entry_qlam]
    simp only [Fin.sum_univ_one]
    show |(1 + 3 * 1) / ((3 - 5 / 4) * (3 - 5 / 4)) - (1 + 0 * 1) / ((5 / 4 - 0) * (5 / 4 - 0)) - 4 / 3 + 4 / 3| ≤
      (0.9 * 1 : ℝ)
    norm_num [abs_le]
  case lowerSide =>
    intro j
    rw [Fin.eq_zero j]
    show |4 / 3 * (5 / 4 - 1 / 2) - 1| ≤ (0.9 * 1 : ℝ)
    norm_num
  case upperSide =>
    intro j
    rw [Fin.eq_zero j]
    show |4 / 3 * (2 - 5 / 4) - 1| ≤ (0.9 * 1 : ℝ)
    norm_num
  case shared =>
    constructor
    case common =>
      rw [dot_eq_sum, Fin.sum_univ_one]
      show |1 - 1 - 0 * 1| ≤ (0.9 * 1 : ℝ)
      norm_num
    case commonSign =>
      show |1 * 1 - 1| ≤ (0.9 * 1 : ℝ)
      norm_num
    all_goals
      intro i
      rw [Fin.eq_zero i]
    case artificial =>
      show |1 + 1 * 1 - 1 - 1| ≤ (0.9 * 1 : ℝ)
      norm_num
    case artificialSign =>
      show |1 * 1 - 1| ≤ (0.9 * 1 : ℝ)
      norm_num
    case slack =>
      show |1 * 1 - 1| ≤ (0.9 * 1 : ℝ)
      norm_num
    case feasible =>
      unfold violations
      rw [entry_ofFn, sample_localSums]
      show |3 / (3 - 5 / 4) - 0 * 1 - 1 + 1 - 3 / 2| ≤ (0.9 * 1 : ℝ)
      norm_num [abs_le]

/-- The sample is solved by its start. -/
lemma sample_solve {rounds : Nat} (hr : 1 ≤ rounds) :
    ((sample (3 / 2)).solve mildWeights singleLevel (.single rounds)).serial =
      .done ⟨(sample (3 / 2)).interiorStart mildWeights, Diagnostics.initial.afterLevel
        ((sample (3 / 2)).residualOf mildWeights ((sample (3 / 2)).interiorStart mildWeights) 1) 1⟩ :=
  solve_settled one_ne_zero singleLevel_valid.epsimin_lt_one sample_settled hr

end Sample

end Approximation

end MovingAsymptotes
