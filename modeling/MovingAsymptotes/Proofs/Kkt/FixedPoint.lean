import MovingAsymptotes.Proofs.Kkt.Residual
import MovingAsymptotes.Proofs.Sensitivities

/-!
# Fixed points of the method

A design at which the subproblem built around it is solved by that design itself is a solution of the
problem, and the other way round. Stationarity carries over because the approximation keeps the
gradients, the constraints because it keeps their values, and the bounds because a move limit meets the
design exactly where the bound does.

* `Sensitivities.residual_serial`: the residual of the problem for sensitivities that fit.
* `Approximation.rows_around_iff`: the rows of the two problems vanish together.
* `Approximation.fixed_point_iff`: so do the two residuals.
-/

namespace MovingAsymptotes

variable {n m : Nat}

lemma Sensitivities.residual_serial {sens : Sensitivities ℝ} {d : Gradients ℝ n sens.g.size}
    {draft : WeightDraft ℝ} {wt : Weights ℝ sens.g.size} (hd : sens.matched n = .ok d)
    (hw : draft.sized sens.g.size = .ok wt) (x : Vector ℝ n) (b : Bounds ℝ n)
    (w : KktPoint ℝ n sens.g.size) :
    (sens.residual x b draft w).serial = .done (d.residualOf x b wt w) := by
  unfold Sensitivities.residual
  simp only [hd, WeightDraft.leading?_of_sized hw, dif_pos]
  exact d.residual_serial x b wt w

namespace Approximation

section Rows

variable {x : Vector ℝ n} {d : Gradients ℝ n m} {asy : Asymptotes ℝ n} {limits : MoveLimits ℝ n}
  {b : Bounds ℝ n} {nGlobal : Nat} {s : Settings ℝ} {wt : Weights ℝ m} {w : KktPoint ℝ n m}

/-- At the design itself the constraints are violated as those of the problem are. -/
lemma violations_around (hw : w.x = x) :
    (around x d asy limits nGlobal s).violations wt w
      ((around x d asy limits nGlobal s).localSums w.x) = d.violations wt w := by
  subst hw
  refine vector_ext fun i => ?_
  have h : ((around w.x d asy limits nGlobal s).localSums w.x)[i] -
      (around w.x d asy limits nGlobal s).b[i] = d.g[i] := localSums_sub_around d limits nGlobal i
  unfold violations Gradients.violations
  simp only [entry_ofFn]
  linarith

/-- A limit that meets the design where the bound does leaves the same complementarity. -/
lemma complementary_iff {u v c d : ℝ} (h : c = d ↔ v = d) : u * (d - c) = 0 ↔ u * (d - v) = 0 := by
  rw [mul_eq_zero, mul_eq_zero, sub_eq_zero, sub_eq_zero, @eq_comm _ d, @eq_comm _ d, h]

/-- At the design itself the rows of the approximation vanish with those of the problem. -/
lemma rows_around_iff (hx : asy.Encloses x) (hl : limits.Nested asy b x) (hw : w.x = x) :
    (around x d asy limits nGlobal s).Rows wt w 0 (· = 0) ↔ d.Rows x b wt w (· = 0) := by
  have stationary : ∀ j : Fin n, ((around x d asy limits nGlobal s).lagrangianGradient w.x
      ((around x d asy limits nGlobal s).lagrangian w.lambda))[j] =
        d.dfdx[j] + (d.dgdx.mulVec w.lambda)[j] := by
    intro j
    rw [hw, lagrangianGradient_around d limits nGlobal hx, Mat.entry_mulVec]
  have lowerSide : ∀ j : Fin n, w.xsi[j] * (w.x[j] - limits.alfa[j]) - 0 = 0 ↔
      w.xsi[j] * (x[j] - b.lower[j]) = 0 := by
    intro j
    rw [sub_zero, hw]
    exact complementary_iff (hl.alfa_eq_iff j)
  have upperSide : ∀ j : Fin n, w.eta[j] * (limits.beta[j] - w.x[j]) - 0 = 0 ↔
      w.eta[j] * (b.upper[j] - x[j]) = 0 := by
    intro j
    rw [sub_zero, hw, ← neg_sub, ← neg_sub x[j], mul_neg, mul_neg, neg_eq_zero, neg_eq_zero]
    exact complementary_iff (hl.beta_eq_iff j)
  have shared : (around x d asy limits nGlobal s).violations wt w
      ((around x d asy limits nGlobal s).localSums w.x) = d.violations wt w := violations_around hw
  constructor
  · intro h
    exact ⟨fun j => stationary j ▸ h.stationary j, fun j => (lowerSide j).1 (h.lowerSide j),
      fun j => (upperSide j).1 (h.upperSide j), shared ▸ h.shared⟩
  · intro h
    exact ⟨fun j => (stationary j).symm ▸ h.stationary j, fun j => (lowerSide j).2 (h.lowerSide j),
      fun j => (upperSide j).2 (h.upperSide j), shared.symm ▸ h.shared⟩

end Rows

/-- Fixed points of the method are the solutions of the problem: a point at the design has no residual
in the subproblem built around the design exactly if it has none in the problem itself. -/
theorem fixed_point_iff {sens : Sensitivities ℝ} {d : Gradients ℝ n sens.g.size} {draft : WeightDraft ℝ}
    {wt : Weights ℝ sens.g.size} {x : Vector ℝ n} {b : Bounds ℝ n} {asy : Asymptotes ℝ n}
    {s : Settings ℝ} (hd : sens.matched n = .ok d) (hw : draft.sized sens.g.size = .ok wt)
    (hb : b.Proper) (hx : b.Contains x) (ha : asy.Encloses x) (hs : s.validate = .ok ()) (nGlobal : Nat)
    (w : KktPoint ℝ n sens.g.size) (hwx : w.x = x) :
    ∃ a r r', (build x d asy (asy.moveLimits x b s) nGlobal s).serial = .done a ∧
      (a.residual wt w 0).serial = .done r ∧ (sens.residual x b draft w).serial = .done r' ∧
      (r.norm = 0 ↔ r'.norm = 0) := by
  have hv := (Settings.validate_eq_ok_iff s).1 hs
  have hl := Asymptotes.moveLimits_nested ha hb hx hv
  refine ⟨_, _, _, build_serial x d asy _ nGlobal s, residual_serial _ wt w 0,
    Sensitivities.residual_serial hd hw x b w, ?_⟩
  rw [residualOf_norm_eq_zero_iff, Gradients.residualOf_norm_eq_zero_iff]
  exact rows_around_iff ha hl hwx

/-- The least `x` between zero and one with `x ≤ 1` is at the lower bound. -/
lemma rows_at_lower_bound : (⟨#v[1], #v[-1], #v[#v[1]]⟩ : Gradients ℝ 1 1).Rows #v[0] ⟨#v[0], #v[1]⟩
    ⟨1, 1, #v[0], #v[1000], #v[1]⟩ ⟨#v[0], #v[0], 0, #v[0], #v[1], #v[0], #v[1000], 1, #v[1]⟩ (· = 0) := by
  constructor
  case stationary =>
    intro j
    rw [Fin.eq_zero j, Mat.entry_mulVec, Fin.sum_univ_one]
    show (1 : ℝ) + 1 * 0 - 1 + 0 = 0
    norm_num
  case lowerSide =>
    intro j
    rw [Fin.eq_zero j]
    show (1 : ℝ) * (0 - 0) = 0
    norm_num
  case upperSide =>
    intro j
    rw [Fin.eq_zero j]
    show (0 : ℝ) * (1 - 0) = 0
    norm_num
  case shared =>
    constructor
    case common =>
      rw [dot_eq_sum, Fin.sum_univ_one]
      show (1 : ℝ) - 1 - 0 * 0 = 0
      norm_num
    case commonSign =>
      show (1 : ℝ) * 0 - 0 = 0
      norm_num
    all_goals
      intro i
      rw [Fin.eq_zero i]
    case artificial =>
      show (1000 : ℝ) + 1 * 0 - 1000 - 0 = 0
      norm_num
    case artificialSign =>
      show (1000 : ℝ) * 0 - 0 = 0
      norm_num
    case slack =>
      show (0 : ℝ) * 1 - 0 = 0
      norm_num
    case feasible =>
      unfold Gradients.violations
      rw [entry_ofFn]
      show (-1 : ℝ) - 0 * 0 - 0 + 1 = 0
      norm_num

/-- There the problem leaves no residual, and so the subproblem leaves none either. -/
theorem fixed_point_at_lower_bound :
    ∃ a r r', (build #v[0] (m := 1) ⟨#v[1], #v[-1], #v[#v[1]]⟩ ⟨#v[-1], #v[2]⟩
        (Asymptotes.moveLimits ⟨#v[-1], #v[2]⟩ #v[0] ⟨#v[0], #v[1]⟩ .default) 1
        (.default : Settings ℝ)).serial = .done a ∧
      (a.residual ⟨1, 1, #v[0], #v[1000], #v[1]⟩
        ⟨#v[0], #v[0], 0, #v[0], #v[1], #v[0], #v[1000], 1, #v[1]⟩ 0).serial = .done r ∧
      (Sensitivities.residual ⟨#[1], #[-1], ⟨1, 1, #v[#v[1]]⟩⟩ #v[0] ⟨#v[0], #v[1]⟩
        ⟨1, 1, #[0], #[1000], #[1]⟩
        (⟨#v[0], #v[0], 0, #v[0], #v[1], #v[0], #v[1000], 1, #v[1]⟩ : KktPoint ℝ 1 1)).serial =
          .done r' ∧
      r.norm = 0 ∧ r'.norm = 0 := by
  let w : KktPoint ℝ 1 1 := ⟨#v[0], #v[0], 0, #v[0], #v[1], #v[0], #v[1000], 1, #v[1]⟩
  have matched : (⟨#[1], #[-1], ⟨1, 1, #v[#v[1]]⟩⟩ : Sensitivities ℝ).matched 1 =
    .ok ⟨#v[1], #v[-1], #v[#v[1]]⟩ := Sensitivities.matched_mk #v[1] #[-1] #v[#v[1]]
  have sized : (⟨1, 1, #[0], #[1000], #[1]⟩ : WeightDraft ℝ).sized 1 =
    .ok ⟨1, 1, #v[0], #v[1000], #v[1]⟩ := rfl
  have proper : (⟨#v[0], #v[1]⟩ : Bounds ℝ 1).Proper := by
    intro j
    fin_cases j
    exact one_pos
  have contains : (⟨#v[0], #v[1]⟩ : Bounds ℝ 1).Contains #v[0] := by
    intro j
    fin_cases j
    exact ⟨le_refl _, zero_le_one⟩
  have encloses : (⟨#v[-1], #v[2]⟩ : Asymptotes ℝ 1).Encloses #v[0] := by
    intro j
    fin_cases j
    exact ⟨neg_one_lt_zero, two_pos⟩
  obtain ⟨a, r, r', ha, hr, hr', same⟩ :=
    fixed_point_iff matched sized proper contains encloses Settings.validate_default 1 w rfl
  have vanishes : r'.norm = 0 := by
    rw [Sensitivities.residual_serial matched sized] at hr'
    cases hr'
    exact (Gradients.residualOf_norm_eq_zero_iff ..).2 rows_at_lower_bound
  exact ⟨a, r, r', ha, hr, hr', same.2 vanishes, vanishes⟩

end Approximation

end MovingAsymptotes
