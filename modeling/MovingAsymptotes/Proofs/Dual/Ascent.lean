import MovingAsymptotes.Proofs.Dual.Agreement

/-!
# The direction of a Newton step on the dual

The conditions of the dual to first order, with the Hessian damped, determine a step of both kinds of
multipliers: complementarity gives the step of `eta` in terms of that of `lambda`, and what is left is
the Newton system. The Hessian is negative semidefinite and the damping negative, so the system is
negative definite. Its right-hand side is the slope of the barrier function downwards, which is why the
step of `lambda` leads upwards. The damping stands beside the step only: a state that needs no step is one
at which the conditions themselves hold.

* `DualState.stepConditions_iff`: the conditions come down to the Newton system.
* `DualState.ascends`: the step of `lambda` leads upwards.
* `DualState.direction_ascends`: the direction that a step takes.
-/

namespace MovingAsymptotes

variable {n m : Nat}

section Definite

variable {a : Mat ℝ m m} {t : Fin m → ℝ}

lemma Mat.form_eq_dotProduct (a : Mat ℝ m m) (v : Fin m → ℝ) :
    a.form v = v ⬝ᵥ a.toMatrix.mulVec v := rfl

/-- A symmetric matrix whose quadratic form is never positive. -/
lemma Mat.posSemidef_neg (symmetric : ∀ i k : Fin m, a[i][k] = a[k][i]) (h : ∀ v, a.form v ≤ 0) :
    (-a.toMatrix).PosSemidef := by
  refine .of_dotProduct_mulVec_nonneg (Matrix.ext fun i k => ?_) fun v => ?_
  · exact congrArg Neg.neg (symmetric k i)
  · rw [Matrix.neg_mulVec, dotProduct_neg, star_trivial, ← Mat.form_eq_dotProduct]
    exact neg_nonneg.2 (h v)

/-- What is taken away from the diagonal makes a semidefinite matrix definite. -/
lemma posDef_neg_add_diagonal {A : Matrix (Fin m) (Fin m) ℝ} (h : (-A).PosSemidef) (ht : ∀ i, t i < 0) :
    (-(A + Matrix.diagonal t)).PosDef := by
  have away : (Matrix.diagonal fun i => -t i).PosDef := Matrix.posDef_diagonal_iff.2 fun i => neg_pos.2 (ht i)
  rw [neg_add, Matrix.diagonal_neg]
  exact Matrix.PosDef.posSemidef_add h away

end Definite

/-- The Hessian is symmetric. -/
lemma DualPoint.hessian_symm {a : Approximation ℝ n m} {w : Weights ℝ m} {pt : DualPoint ℝ n m}
    {lambda : Vector ℝ m} {hess : Mat ℝ m m} (hh : (pt.hessian a w lambda).serial = .done hess) (i k : Fin m) :
    hess[i][k] = hess[k][i] := by
  have entries := (hessian_entries pt).of_serial hh
  have design : ∑ j : Fin n, a.slopeAt pt.x i j * pt.inverseCurvature a j * a.slopeAt pt.x k j =
      ∑ j : Fin n, a.slopeAt pt.x k j * pt.inverseCurvature a j * a.slopeAt pt.x i j :=
    Finset.sum_congr rfl fun j _ => by ring
  rw [entries i k, entries k i, design, mul_comm w.a[i]]
  by_cases hik : i = k
  · rw [hik]
  · have apart : ¬ (i = k ∧ w.c[i] < lambda[i]) := fun h => hik h.1
    have apart' : ¬ (k = i ∧ w.c[k] < lambda[k]) := fun h => hik h.1.symm
    rw [if_neg apart, if_neg apart']

namespace DualState

variable {a : Approximation ℝ n m} {w : Weights ℝ m} {s : DualState ℝ n m} {hess : Mat ℝ m m} {epsi : ℝ}
  {dlam deta : Vector ℝ m}

/-- The conditions of the dual to first order, with the Hessian damped. -/
structure StepConditions (s : DualState ℝ n m) (hess : Mat ℝ m m) (epsi : ℝ) (dlam deta : Vector ℝ m) :
    Prop where
  stationary : ∀ i : Fin m,
    ∑ k : Fin m, hess[i][k] * dlam[k] + damping hess * dlam[i] + deta[i] = -(s.gradient[i] + s.eta[i])
  complementary : ∀ i : Fin m,
    s.lambda[i] * deta[i] + s.eta[i] * dlam[i] = epsi - s.eta[i] * s.lambda[i]

/-- Complementarity to first order gives the step of `eta`. -/
lemma complementary_iff {l e dl de : ℝ} (hl : l ≠ 0) :
    l * de + e * dl = epsi - e * l ↔ de = -e + epsi / l - dl * (e / l) := by
  have common : -e + epsi / l - dl * (e / l) = (epsi - e * l - e * dl) / l := by
    field_simp
    ring
  rw [common, eq_div_iff hl]
  constructor <;> intro h <;> linarith

/-- The conditions come down to the Newton system, and the step of `eta` follows. -/
theorem stepConditions_iff (hl : ∀ i : Fin m, s.lambda[i] ≠ 0) :
    s.StepConditions hess epsi dlam deta ↔
      (s.system hess).Solves (s.rhs epsi) dlam ∧ deta = s.etaStep epsi dlam := by
  have entry (i : Fin m) : (s.etaStep epsi dlam)[i] =
      -s.eta[i] + epsi / s.lambda[i] - dlam[i] * (s.eta[i] / s.lambda[i]) := entry_ofFn _ i
  have step : (∀ i : Fin m, s.lambda[i] * deta[i] + s.eta[i] * dlam[i] = epsi - s.eta[i] * s.lambda[i]) ↔
      deta = s.etaStep epsi dlam := by
    refine ⟨fun h => vector_ext fun i => ?_, fun h i => ?_⟩
    · rw [entry]
      exact (complementary_iff (hl i)).1 (h i)
    · rw [h, entry]
      exact (complementary_iff (hl i)).2 rfl
  have row (i : Fin m) : ∑ k : Fin m, (s.system hess)[i][k] * dlam[k] =
      ∑ k : Fin m, hess[i][k] * dlam[k] + (-(s.eta[i] / s.lambda[i]) + damping hess) * dlam[i] :=
    Mat.sum_add_diagonal (s.entry_system hess) (fun k => dlam[k]) i
  have system (hd : deta = s.etaStep epsi dlam) (i : Fin m) :
      ∑ k : Fin m, hess[i][k] * dlam[k] + damping hess * dlam[i] + deta[i] =
          -(s.gradient[i] + s.eta[i]) ↔
        ∑ k : Fin m, (s.system hess)[i][k] * dlam[k] = (s.rhs epsi)[i] := by
    have rhs : (s.rhs epsi)[i] = -s.gradient[i] - epsi / s.lambda[i] := entry_ofFn _ i
    rw [row, rhs, hd, entry]
    constructor <;> intro h <;> linarith
  constructor
  · rintro ⟨stationary, complementary⟩
    have hd := step.1 complementary
    exact ⟨fun i => (system hd i).1 (stationary i), hd⟩
  · rintro ⟨solves, hd⟩
    exact ⟨fun i => (system hd i).2 (solves i), step.2 hd⟩

/-- No step is needed exactly where the conditions themselves hold; the damping does not matter there. -/
lemma stepConditions_zero_iff :
    s.StepConditions hess epsi (.replicate m 0) (.replicate m 0) ↔
      ∀ i : Fin m, s.gradient[i] + s.eta[i] = 0 ∧ s.eta[i] * s.lambda[i] = epsi := by
  constructor
  · rintro ⟨stationary, complementary⟩ i
    have gradient := stationary i
    have product := complementary i
    simp only [entry_replicate, mul_zero, Finset.sum_const_zero, add_zero] at gradient product
    exact ⟨by linarith, by linarith⟩
  · intro h
    refine ⟨fun i => ?_, fun i => ?_⟩ <;>
      simp only [entry_replicate, mul_zero, Finset.sum_const_zero, add_zero] <;> linarith [(h i).1, (h i).2]

/-- A step of `lambda` leads upwards unless the slope of the barrier function vanishes. -/
theorem ascends (definite : (-(s.system hess).toMatrix).PosDef)
    (hd : (s.system hess).Solves (s.rhs epsi) dlam)
    (hg : ∃ i : Fin m, s.gradient[i] + epsi / s.lambda[i] ≠ 0) :
    0 < ∑ i : Fin m, (s.gradient[i] + epsi / s.lambda[i]) * dlam[i] := by
  have slope (i : Fin m) : s.gradient[i] + epsi / s.lambda[i] =
      -∑ k : Fin m, (s.system hess)[i][k] * dlam[k] := by
    have rhs : (s.rhs epsi)[i] = -s.gradient[i] - epsi / s.lambda[i] := entry_ofFn _ i
    rw [hd i, rhs]
    ring
  have moves : (fun i : Fin m => dlam[i]) ≠ 0 := by
    intro hz
    obtain ⟨i, hi⟩ := hg
    refine hi ?_
    rw [slope, Finset.sum_eq_zero, neg_zero]
    intro k _
    rw [congrFun hz k, Pi.zero_apply, mul_zero]
  have positive := definite.dotProduct_mulVec_pos moves
  rw [star_trivial, Matrix.neg_mulVec, dotProduct_neg, ← Mat.form_eq_dotProduct] at positive
  have form : ∑ i : Fin m, (s.gradient[i] + epsi / s.lambda[i]) * dlam[i] =
      -(s.system hess).form fun i => dlam[i] := by
    unfold Mat.form
    rw [← Finset.sum_neg_distrib]
    refine Finset.sum_congr rfl fun i _ => ?_
    rw [slope]
    ring
  rwa [form]

lemma toMatrix_system (s : DualState ℝ n m) (hess : Mat ℝ m m) : (s.system hess).toMatrix =
    hess.toMatrix + Matrix.diagonal fun i => -(s.eta[i] / s.lambda[i]) + damping hess := by
  refine Matrix.ext fun i k => ?_
  rw [Matrix.add_apply, Matrix.diagonal_apply]
  exact s.entry_system hess i k

/-- The damping, by the diagonal of the Hessian. -/
lemma damping_eq (hess : Mat ℝ m m) : damping hess = min (1e-4 * (∑ i : Fin m, hess[i][i]) / m) (-1e-7) := by
  unfold damping Mat.trace
  rw [smaller_eq_min, sumOver_eq_sum]

/-- From positive multipliers a step goes along the only direction that meets the conditions with the damped
Hessian. The Hessian is negative semidefinite, and negative definite once it is damped. The direction leads
upwards on the barrier function, and it vanishes exactly where the conditions hold without damping. -/
theorem direction_ascends (ha : a.WellPosed) (hw : w.Valid) {lambda eta : Vector ℝ m}
    (hl : ∀ i : Fin m, 0 < lambda[i]) (he : ∀ i : Fin m, 0 < eta[i]) (epsi : ℝ) :
    let pt := DualPoint.ofMultipliers a w lambda
    ∃ gradient hess dlam deta,
      (pt.gradient a w).serial = .done gradient ∧ (pt.hessian a w lambda).serial = .done hess ∧
      hess.toMatrix.IsSymm ∧ (-hess.toMatrix).PosSemidef ∧
      damping hess = min (1e-4 * (∑ i : Fin m, hess[i][i]) / m) (-1e-7) ∧
      (-(hess.toMatrix + damping hess • 1)).PosDef ∧
      let s : DualState ℝ n m := ⟨lambda, eta, pt, gradient⟩
      (-(s.system hess).toMatrix).PosDef ∧ s.direction? hess epsi = some (dlam, deta) ∧
      (∀ u v, s.StepConditions hess epsi u v ↔ (u, v) = (dlam, deta)) ∧
      ((∃ i : Fin m, gradient[i] + epsi / lambda[i] ≠ 0) →
        0 < ∑ i : Fin m, (gradient[i] + epsi / lambda[i]) * dlam[i]) ∧
      ((dlam, deta) = (.replicate m 0, .replicate m 0) ↔
        ∀ i : Fin m, gradient[i] + eta[i] = 0 ∧ eta[i] * lambda[i] = epsi) := by
  intro pt
  obtain ⟨gradient, hg, values⟩ := DualPoint.gradient_returns (a := a) (w := w) pt
  obtain ⟨hess, hh, form⟩ := DualPoint.hessian_returns (w := w) ha hw hl
  let s : DualState ℝ n m := ⟨lambda, eta, pt, gradient⟩
  have interior : s.Interior a w := ⟨hl, he, rfl, values⟩
  have symmetric : hess.toMatrix.IsSymm := .ext fun i k => DualPoint.hessian_symm hh k i
  have semidefinite := Mat.posSemidef_neg (DualPoint.hessian_symm hh) form
  have damped : (-(hess.toMatrix + damping hess • 1)).PosDef := by
    rw [Matrix.smul_one_eq_diagonal]
    exact posDef_neg_add_diagonal semidefinite fun _ => damping_neg hess
  have definite : (-(s.system hess).toMatrix).PosDef := by
    rw [toMatrix_system]
    exact posDef_neg_add_diagonal semidefinite (system_diagonal_neg interior hess)
  have regular := system_regular interior form
  obtain ⟨dlam, hdlam, solves⟩ := regular.exists_solve? (s.rhs epsi)
  have unique (u v : Vector ℝ m) :
      s.StepConditions hess epsi u v ↔ (u, v) = (dlam, s.etaStep epsi dlam) := by
    rw [stepConditions_iff fun i => (hl i).ne', Prod.mk.injEq]
    constructor
    · rintro ⟨hu, rfl⟩
      have same := regular.unique hu solves
      exact ⟨same, by rw [same]⟩
    · rintro ⟨rfl, rfl⟩
      exact ⟨solves, rfl⟩
  refine ⟨gradient, hess, dlam, s.etaStep epsi dlam, hg, hh, symmetric, semidefinite, damping_eq hess,
    damped, definite, ?_, unique, ascends definite solves, ?_⟩
  · unfold direction?
    rw [hdlam]
    rfl
  · rw [eq_comm, ← unique]
    exact stepConditions_zero_iff

end DualState

namespace Approximation

/-- The sample with `b = 5 / 2` and both multipliers `1`, at the barrier parameter `2`: the gradient `-1` of
the dual function is outweighed by the barrier, and the step of the multiplier leads upwards. -/
theorem sample_direction_ascends :
    let pt := DualPoint.ofMultipliers (sample (5 / 2)) sampleWeights (.singleton 1)
    ∃ gradient hess dlam deta, (pt.gradient (sample (5 / 2)) sampleWeights).serial = .done gradient ∧
      (pt.hessian (sample (5 / 2)) sampleWeights (.singleton 1)).serial = .done hess ∧
      (⟨.singleton 1, .singleton 1, pt, gradient⟩ : DualState ℝ 1 1).direction? hess 2 = some (dlam, deta) ∧
      0 < dlam[(0 : Fin 1)] := by
  intro pt
  have positive (i : Fin 1) : 0 < (Vector.singleton (1 : ℝ))[i] := by
    rw [Fin.eq_zero i]
    exact one_pos
  obtain ⟨gradient, hess, dlam, deta, hg, hh, -, -, -, -, -, direction, -, ascends, -⟩ :=
    DualState.direction_ascends (sample_wellPosed (5 / 2)) sampleWeights_valid positive positive 2
  refine ⟨gradient, hess, dlam, deta, hg, hh, direction, ?_⟩
  have hx := sample_design (5 / 2) (l := 1) (r := 2) (by norm_num) (by norm_num) (by norm_num)
  have slope : gradient[(0 : Fin 1)] + 2 / (Vector.singleton (1 : ℝ))[(0 : Fin 1)] = 1 := by
    rw [sample_gradient (by norm_num) hx (sample_common (5 / 2) 1) hg]
    show (3 / (3 - 3 / (2 + 1)) - (5 / 2 + 10 * max (1 - 1) 0) + 2 / 1 : ℝ) = 1
    norm_num
  have upwards := ascends ⟨0, by rw [slope]; exact one_ne_zero⟩
  rwa [Fin.sum_univ_one, slope, one_mul] at upwards

end Approximation

end MovingAsymptotes
