import MovingAsymptotes.Proofs.Convexity
import MovingAsymptotes.Proofs.Kkt.Residual
import MovingAsymptotes.Proofs.Settings

/-!
# Optimality of points without a residual

The subproblem is convex, so the optimality conditions that the residual measures are not only necessary.
Weighted by the multipliers, the constraints can only lower the objective of a feasible point. What then
remains splits into the Lagrangian as a function of the design, which a stationary design minimises, a
multiple of `z` that is zero at the point, and a parabola for each artificial variable, which has its
vertex at the point.

* `KktPoint.Admissible.objective_grows`: how far a feasible point lies above one without a residual.
* `Approximation.minimises_of_residual_zero`: a point without a residual is a minimiser, and its design and
  its artificial variables are those of every minimiser.
-/

namespace MovingAsymptotes

variable {n m : Nat} {a : Approximation ℝ n m} {w : Weights ℝ m}

namespace Approximation

/-- The objective of the subproblem. -/
noncomputable def objective (a : Approximation ℝ n m) (w : Weights ℝ m) (x : Vector ℝ n)
    (y : Vector ℝ m) (z : ℝ) : ℝ :=
  ∑ j : Fin n, (a.p0[j] / (a.asymptotes.upp[j] - x[j]) + a.q0[j] / (x[j] - a.asymptotes.low[j])) +
    w.a0 * z + ∑ i : Fin m, (w.c[i] * y[i] + w.d[i] * y[i] ^ 2 / 2)

/-- The constraints of the subproblem. -/
structure Feasible (a : Approximation ℝ n m) (w : Weights ℝ m) (x : Vector ℝ n) (y : Vector ℝ m)
    (z : ℝ) : Prop where
  contains : a.limits.Contains x
  y_nonneg : ∀ i : Fin m, 0 ≤ y[i]
  z_nonneg : 0 ≤ z
  excess_nonpos : ∀ i : Fin m,
    ∑ j : Fin n, (a.p[j][i] / (a.asymptotes.upp[j] - x[j]) + a.q[j][i] / (x[j] - a.asymptotes.low[j])) -
      a.b[i] - w.a[i] * z - y[i] ≤ 0

/-- A feasible point with the least objective of all. -/
structure Minimises (a : Approximation ℝ n m) (w : Weights ℝ m) (x : Vector ℝ n) (y : Vector ℝ m)
    (z : ℝ) : Prop where
  feasible : a.Feasible w x y z
  least : ∀ (x' : Vector ℝ n) (y' : Vector ℝ m) (z' : ℝ), a.Feasible w x' y' z' →
    a.objective w x y z ≤ a.objective w x' y' z'

end Approximation

/-- A primal-dual point within the move limits whose other groups are not negative. -/
structure KktPoint.Admissible (a : Approximation ℝ n m) (pt : KktPoint ℝ n m) : Prop where
  contains : a.limits.Contains pt.x
  y_nonneg : ∀ i : Fin m, 0 ≤ pt.y[i]
  z_nonneg : 0 ≤ pt.z
  lambda_nonneg : ∀ i : Fin m, 0 ≤ pt.lambda[i]
  xsi_nonneg : ∀ j : Fin n, 0 ≤ pt.xsi[j]
  eta_nonneg : ∀ j : Fin n, 0 ≤ pt.eta[j]
  mu_nonneg : ∀ i : Fin m, 0 ≤ pt.mu[i]
  zet_nonneg : 0 ≤ pt.zet
  s_nonneg : ∀ i : Fin m, 0 ≤ pt.s[i]

section Saddle

variable {pt : KktPoint ℝ n m} {x : Vector ℝ n} {y : Vector ℝ m} {z : ℝ}

/-- The sums of the constraints, as the constraints of the subproblem have them. -/
lemma Approximation.entry_localSums_div (x : Vector ℝ n) (i : Fin m) :
    (a.localSums x)[i] = ∑ j : Fin n,
      (a.p[j][i] / (a.asymptotes.upp[j] - x[j]) + a.q[j][i] / (x[j] - a.asymptotes.low[j])) := by
  rw [entry_localSums]
  exact Finset.sum_congr rfl fun j _ => by rw [mul_one_div, mul_one_div]; rfl

/-- A point without a residual has a stationary design. -/
lemma KktPoint.Admissible.stationary (hp : pt.Admissible a) (hr : a.Rows w pt 0 (· = 0)) :
    a.Stationary pt.lambda pt.x := by
  refine ⟨hp.contains, fun x' hx' j => ?_⟩
  have hg := hr.stationary j
  have lower := mul_nonneg (hp.xsi_nonneg j) (sub_nonneg.2 (hx' j).1)
  have upper := mul_nonneg (hp.eta_nonneg j) (sub_nonneg.2 (hx' j).2)
  have hlo := hr.lowerSide j
  have hup := hr.upperSide j
  calc (0 : ℝ)
      ≤ pt.xsi[j] * (x'[j] - a.limits.alfa[j]) + pt.eta[j] * (a.limits.beta[j] - x'[j]) :=
        add_nonneg lower upper
    _ = (pt.xsi[j] - pt.eta[j]) * (x'[j] - pt.x[j]) := by linarith
    _ = (a.lagrangianGradient pt.x (a.lagrangian pt.lambda))[j] * (x'[j] - pt.x[j]) := by
        congr 1
        linarith

/-- So it is feasible: what a constraint lacks, its slack makes up for. -/
lemma KktPoint.Admissible.feasible (hp : pt.Admissible a) (hr : a.Rows w pt 0 (· = 0)) :
    a.Feasible w pt.x pt.y pt.z := by
  refine ⟨hp.contains, hp.y_nonneg, hp.z_nonneg, fun i => ?_⟩
  have row := hr.shared.feasible i
  have slack := hp.s_nonneg i
  unfold Approximation.violations at row
  rw [entry_ofFn] at row
  rw [← Approximation.entry_localSums_div]
  linarith

/-- The objective and the weighted constraints at any point, split by means of the stationarity of `pt`
in `y` and in `z`. -/
lemma KktPoint.objective_split (hr : a.Rows w pt 0 (· = 0)) (x : Vector ℝ n) (y : Vector ℝ m) (z : ℝ) :
    a.objective w x y z +
        ∑ i : Fin m, pt.lambda[i] * ((a.localSums x)[i] - a.b[i] - w.a[i] * z - y[i]) =
      ∑ j, a.lagrangianTerm (a.lagrangian pt.lambda) x j + pt.zet * z +
        ∑ i : Fin m, (pt.mu[i] * y[i] + w.d[i] / 2 * (y[i] - pt.y[i]) ^ 2) -
        ∑ i : Fin m, (w.d[i] / 2 * pt.y[i] ^ 2 + pt.lambda[i] * a.b[i]) := by
  have common : w.a0 * z = pt.zet * z + ∑ i : Fin m, pt.lambda[i] * (w.a[i] * z) := by
    have row := hr.shared.common
    rw [dot_eq_sum] at row
    have weight : w.a0 = pt.zet + ∑ i : Fin m, w.a[i] * pt.lambda[i] := by linarith
    rw [weight, add_mul, Finset.sum_mul]
    exact congrArg _ (Finset.sum_congr rfl fun i _ => by ring)
  -- Stationarity in `y` makes the share of each artificial variable a parabola around its value at `pt`.
  have artificial (i : Fin m) : w.c[i] * y[i] + w.d[i] * y[i] ^ 2 / 2 =
      pt.mu[i] * y[i] + w.d[i] / 2 * (y[i] - pt.y[i]) ^ 2 - w.d[i] / 2 * pt.y[i] ^ 2 +
        pt.lambda[i] * y[i] := by
    have row := hr.shared.artificial i
    have weight : w.c[i] = pt.mu[i] + pt.lambda[i] - w.d[i] * pt.y[i] := by linarith
    rw [weight]
    ring
  unfold Approximation.objective
  rw [Approximation.sum_lagrangianTerm, common, Finset.sum_congr rfl fun i _ => artificial i]
  simp only [mul_sub, Finset.sum_sub_distrib, Finset.sum_add_distrib]
  simp only [Asymptotes.above, Asymptotes.below]
  ring

/-- At the point itself the constraints have no share, nor has `z`, and the parabolas are at their
vertices. -/
lemma KktPoint.objective_eq (hr : a.Rows w pt 0 (· = 0)) :
    a.objective w pt.x pt.y pt.z =
      ∑ j, a.lagrangianTerm (a.lagrangian pt.lambda) pt.x j -
        ∑ i : Fin m, (w.d[i] / 2 * pt.y[i] ^ 2 + pt.lambda[i] * a.b[i]) := by
  have split := pt.objective_split hr pt.x pt.y pt.z
  have constraints : ∑ i : Fin m, pt.lambda[i] *
      ((a.localSums pt.x)[i] - a.b[i] - w.a[i] * pt.z - pt.y[i]) = 0 := by
    refine Finset.sum_eq_zero fun i _ => ?_
    have row := hr.shared.feasible i
    have slack := hr.shared.slack i
    unfold Approximation.violations at row
    rw [entry_ofFn] at row
    have excess : (a.localSums pt.x)[i] - a.b[i] - w.a[i] * pt.z - pt.y[i] = -pt.s[i] := by linarith
    rw [excess]
    linarith
  have parabolas : ∑ i : Fin m, (pt.mu[i] * pt.y[i] + w.d[i] / 2 * (pt.y[i] - pt.y[i]) ^ 2) = 0 := by
    refine Finset.sum_eq_zero fun i _ => ?_
    have row := hr.shared.artificialSign i
    rw [sub_self]
    linarith
  have common := hr.shared.commonSign
  rw [constraints, parabolas] at split
  linarith

/-- A feasible point lies above one without a residual by what the Lagrangian grows with the design and
by what the parabolas grow with the artificial variables. -/
theorem KktPoint.Admissible.objective_grows (hp : pt.Admissible a) (hr : a.Rows w pt 0 (· = 0))
    (hf : a.Feasible w x y z) :
    a.objective w pt.x pt.y pt.z +
        (∑ j, a.lagrangianTerm (a.lagrangian pt.lambda) x j -
          ∑ j, a.lagrangianTerm (a.lagrangian pt.lambda) pt.x j) +
        ∑ i : Fin m, w.d[i] / 2 * (y[i] - pt.y[i]) ^ 2 ≤
      a.objective w x y z := by
  have split := pt.objective_split hr x y z
  have here := KktPoint.objective_eq hr
  have constraints : ∑ i : Fin m, pt.lambda[i] *
      ((a.localSums x)[i] - a.b[i] - w.a[i] * z - y[i]) ≤ 0 := by
    refine Finset.sum_nonpos fun i _ => mul_nonpos_of_nonneg_of_nonpos (hp.lambda_nonneg i) ?_
    rw [Approximation.entry_localSums_div]
    exact hf.excess_nonpos i
  have common : 0 ≤ pt.zet * z := mul_nonneg hp.zet_nonneg hf.z_nonneg
  have multipliers : 0 ≤ ∑ i : Fin m, pt.mu[i] * y[i] :=
    Finset.sum_nonneg fun i _ => mul_nonneg (hp.mu_nonneg i) (hf.y_nonneg i)
  rw [Finset.sum_add_distrib] at split
  linarith

end Saddle

namespace Approximation

variable {pt : KktPoint ℝ n m} {r : Residual ℝ}

/-- A point without a residual solves the subproblem, and if the coefficients of the objective are positive,
every solution has its design and its artificial variables. -/
theorem minimises_of_residual_zero (ha : a.Convex) (hd : ∀ i : Fin m, 0 < w.d[i]) (hp : pt.Admissible a)
    (hr : (a.residual w pt 0).serial = .done r) (hn : r.norm = 0) :
    a.Minimises w pt.x pt.y pt.z ∧
      ((∀ j : Fin n, 0 < a.p0[j] ∧ 0 < a.q0[j]) → ∀ (x : Vector ℝ n) (y : Vector ℝ m) (z : ℝ),
        a.Minimises w x y z → x = pt.x ∧ y = pt.y) := by
  have rows : a.Rows w pt 0 (· = 0) := .of_residual hr hn
  have stationary := hp.stationary rows
  have squares (y : Vector ℝ m) (i : Fin m) : 0 ≤ w.d[i] / 2 * (y[i] - pt.y[i]) ^ 2 :=
    mul_nonneg (half_pos (hd i)).le (sq_nonneg _)
  refine ⟨⟨hp.feasible rows, fun x y z hf => ?least⟩, fun hpos x y z hmin => ?unique⟩
  case least =>
    have grows := hp.objective_grows rows hf
    have design := stationary.value_le ha hp.lambda_nonneg hf.contains
    have artificial := Finset.sum_nonneg fun i (_ : i ∈ Finset.univ) => squares y i
    linarith
  case unique =>
    have grows := hp.objective_grows rows hmin.feasible
    have least := hmin.least _ _ _ (hp.feasible rows)
    have design := stationary.value_le ha hp.lambda_nonneg hmin.feasible.contains
    have artificial := Finset.sum_nonneg fun i (_ : i ∈ Finset.univ) => squares y i
    constructor
    · by_contra hne
      have hlam (j : Fin n) := (hpos j).1.trans_le (ha.p0_le_plam hp.lambda_nonneg j)
      have above := stationary.value_lt ha hp.lambda_nonneg hlam hmin.feasible.contains (Ne.symm hne)
      linarith
    · have vanish : ∑ i : Fin m, w.d[i] / 2 * (y[i] - pt.y[i]) ^ 2 = 0 := by linarith
      refine vector_ext fun i => ?_
      have square := (Finset.sum_eq_zero_iff_of_nonneg fun i _ => squares y i).1 vanish i (Finset.mem_univ i)
      have same := (mul_eq_zero.1 square).resolve_left (half_pos (hd i)).ne'
      exact sub_eq_zero.1 (pow_eq_zero_iff two_ne_zero |>.1 same)

section Sample

/-- One variable between the poles `0` and `3`, with the objective `1 / (3 - x) + 1 / x` and a constraint
`3 / (3 - x) ≤ b`. -/
noncomputable def sample (b : ℝ) : Approximation ℝ 1 1 where
  asymptotes := ⟨.singleton 0, .singleton 3⟩
  limits := ⟨.singleton (1 / 2), .singleton 2⟩
  p0 := .singleton 1
  q0 := .singleton 1
  p := .singleton (.singleton 3)
  q := .singleton (.singleton 0)
  b := .singleton b
  nGlobal := 1

/-- Weights that let `z` relax the constraint. -/
def sampleWeights : Weights ℝ 1 := ⟨1, 1, .singleton 1, .singleton 1000, .singleton 1⟩

/-- The solution of the sample if `z` has to make up for the constraint. -/
def samplePoint (z : ℝ) : KktPoint ℝ 1 1 :=
  ⟨.singleton 1, .singleton 0, z, .singleton 1, .singleton 0, .singleton 0, .singleton 999, 0, .singleton 0⟩

lemma sample_wellPosed (b : ℝ) : (sample b).WellPosed := by
  have one : ∀ j : Fin 1, j = 0 := Fin.eq_zero
  constructor <;> intro j <;> rw [one j]
  · exact one_pos
  · exact one_pos
  · intro i
    rw [one i]
    exact zero_le_three
  · intro i
    rw [one i]
    exact le_refl 0
  · exact one_half_pos
  · show (1 / 2 : ℝ) < 2
    norm_num
  · show (2 : ℝ) < 3
    norm_num

lemma sampleWeights_validate :
    (⟨1, 1, #[1], #[1000], #[1]⟩ : WeightDraft ℝ).validate 1 = .ok sampleWeights := by
  refine WeightDraft.validate_eq_ok_iff.2 ⟨rfl, one_pos, fun i => ?_⟩
  rw [Fin.eq_zero i]
  exact one_pos

lemma sampleWeights_valid : sampleWeights.Valid :=
  (WeightDraft.validate_eq_ok_iff.1 sampleWeights_validate).2

lemma samplePoint_admissible (b : ℝ) {z : ℝ} (hz : 0 ≤ z) : (samplePoint z).Admissible (sample b) where
  contains j := by
    rw [Fin.eq_zero j]
    show (1 / 2 : ℝ) ≤ 1 ∧ (1 : ℝ) ≤ 2
    norm_num
  y_nonneg i := by rw [Fin.eq_zero i]; exact le_refl 0
  z_nonneg := hz
  lambda_nonneg i := by rw [Fin.eq_zero i]; exact zero_le_one
  xsi_nonneg j := by rw [Fin.eq_zero j]; exact le_refl 0
  eta_nonneg j := by rw [Fin.eq_zero j]; exact le_refl 0
  mu_nonneg i := by
    rw [Fin.eq_zero i]
    show (0 : ℝ) ≤ 999
    norm_num
  zet_nonneg := le_refl 0
  s_nonneg i := by rw [Fin.eq_zero i]; exact le_refl 0

lemma sample_localSums (b x : ℝ) : (sample b).localSums (.singleton x) = .singleton (3 / (3 - x)) := by
  refine vector_ext fun i => ?_
  rw [Fin.eq_zero i, entry_localSums, Fin.sum_univ_one]
  show 3 * (1 / (3 - x)) + 0 * (1 / (x - 0)) = 3 / (3 - x)
  ring

lemma samplePoint_residual (z : ℝ) :
    ((sample (3 / 2 - z)).residualOf sampleWeights (samplePoint z) 0).norm = 0 := by
  have zeros : (sample (3 / 2 - z)).Rows sampleWeights (samplePoint z) 0 (· = 0) := by
    constructor
    case stationary =>
      intro j
      rw [Fin.eq_zero j, entry_lagrangianGradient, entry_plam, entry_qlam]
      simp only [Fin.sum_univ_one]
      show (1 + 3 * 1) / ((3 - 1) * (3 - 1)) - (1 + 0 * 1) / ((1 - 0) * (1 - 0)) - 0 + 0 = (0 : ℝ)
      norm_num
    case lowerSide =>
      intro j
      rw [Fin.eq_zero j]
      show (0 : ℝ) * (1 - 1 / 2) - 0 = 0
      norm_num
    case upperSide =>
      intro j
      rw [Fin.eq_zero j]
      show (0 : ℝ) * (2 - 1) - 0 = 0
      norm_num
    case shared =>
      constructor
      case common =>
        rw [dot_eq_sum, Fin.sum_univ_one]
        show (1 : ℝ) - 0 - 1 * 1 = 0
        norm_num
      case commonSign =>
        show 0 * z - 0 = 0
        ring
      all_goals
        intro i
        rw [Fin.eq_zero i]
      case artificial =>
        show (1000 : ℝ) + 1 * 0 - 999 - 1 = 0
        norm_num
      case artificialSign =>
        show (999 : ℝ) * 0 - 0 = 0
        norm_num
      case slack =>
        show (1 : ℝ) * 0 - 0 = 0
        norm_num
      case feasible =>
        unfold violations
        rw [entry_ofFn]
        show ((sample (3 / 2 - z)).localSums (.singleton 1))[(0 : Fin 1)] - 1 * z - 0 + 0 - (3 / 2 - z) = 0
        rw [sample_localSums]
        show 3 / (3 - 1) - 1 * z - 0 + 0 - (3 / 2 - z) = 0
        norm_num
  exact (residualOf_norm_eq_zero_iff ..).2 zeros

/-- With `b = 3 / 2` the sample is solved by the design `1`, where the constraint has the multiplier `1`. -/
theorem samplePoint_minimises :
    (sample (3 / 2)).Minimises sampleWeights (.singleton 1) (.singleton 0) 0 ∧
      ∀ x y z, (sample (3 / 2)).Minimises sampleWeights x y z → x = .singleton 1 ∧ y = .singleton 0 := by
  have hn := samplePoint_residual 0
  rw [sub_zero] at hn
  have ha := sample_wellPosed (3 / 2)
  obtain ⟨least, unique⟩ := minimises_of_residual_zero ha.convex
    (WeightDraft.validate_eq_ok_iff.1 sampleWeights_validate).2.d_pos
    (samplePoint_admissible _ (le_refl 0)) ((sample (3 / 2)).residual_serial sampleWeights (samplePoint 0) 0) hn
  exact ⟨least, unique fun j => ⟨ha.p0_pos j, ha.q0_pos j⟩⟩

end Sample

end Approximation

end MovingAsymptotes
