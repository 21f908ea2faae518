import Mathlib
import MovingAsymptotes.Dual.Point
import MovingAsymptotes.Proofs.Approximation
import MovingAsymptotes.Proofs.Linear.Form
import MovingAsymptotes.Proofs.Reduction.Serial

/-!
# The dual function over the reals

The minimiser of the Lagrangian lies within the move limits, and there the Lagrangian is curved upwards.
So the Hessian of the dual function is negative semidefinite: a sum of squares, weighted by the inverse
curvatures of the free variables and by those of the artificial ones, is taken away from zero.

* `DualPoint.ofMultipliers_contains`: the minimiser lies within the move limits.
* `DualPoint.hessian_returns`: the Hessian is negative semidefinite.
* `DualPoint.hessian_entries`: the entries of the Hessian.
-/

namespace MovingAsymptotes.DualPoint

variable {n m : Nat} {a : Approximation ℝ n m} {w : Weights ℝ m} {lambda : Vector ℝ m}

lemma zScale_pos : (0 : ℝ) < zScale := by
  unfold zScale
  norm_num

lemma ofMultipliers_contains (h : a.WellPosed) : a.limits.Contains (ofMultipliers a w lambda).x := by
  intro j
  unfold ofMultipliers
  simp only [entry_ofFn, clamp_eq]
  exact ⟨le_max_right _ _, max_le (min_le_right _ _) (h.alfa_lt_beta j).le⟩

/-- The curvature of the Lagrangian in direction of a variable, as the dual method divides by it. -/
noncomputable def curvature (a : Approximation ℝ n m) (pt : DualPoint ℝ n m) (j : Fin n) : ℝ :=
  let above := a.asymptotes.above pt.x j
  let below := a.asymptotes.below pt.x j
  2.0 * pt.lagrangian.plam[j] / (above * above * above) +
    2.0 * pt.lagrangian.qlam[j] / (below * below * below)

lemma curvature_pos (h : a.WellPosed) (hl : ∀ i : Fin m, 0 < lambda[i]) (j : Fin n) :
    0 < (ofMultipliers a w lambda).curvature a j := by
  have hx : a.limits.Contains (ofMultipliers a w lambda).x := ofMultipliers_contains h
  have hu := h.above_pos hx j
  have hb := h.below_pos hx j
  have hp := h.plam_pos (fun i => (hl i).le) j
  have hq := h.qlam_pos (fun i => (hl i).le) j
  have two : (0 : ℝ) < 2.0 := by norm_num
  exact add_pos (div_pos (mul_pos two hp) (mul_pos (mul_pos hu hu) hu))
    (div_pos (mul_pos two hq) (mul_pos (mul_pos hb hb) hb))

lemma inverseCurvature_nonneg (h : a.WellPosed) (hl : ∀ i : Fin m, 0 < lambda[i]) (j : Fin n) :
    0 ≤ (ofMultipliers a w lambda).inverseCurvature a j := by
  unfold inverseCurvature
  split
  · exact (one_div_pos.2 (curvature_pos h hl j)).le
  · exact le_refl 0

lemma entry_localHessian (a : Approximation ℝ n m) (pt : DualPoint ℝ n m) (i k : Fin m) :
    (localHessian a pt)[i][k] =
      -∑ j : Fin n, a.slopeAt pt.x i j * pt.inverseCurvature a j * a.slopeAt pt.x k j := by
  unfold localHessian
  rw [Mat.getElem_ofFn, Mat.entry_congruence]
  simp only [Mat.getElem_ofFn, entry_ofFn]

/-- The design variables bend the dual function downwards. -/
lemma form_localHessian_nonpos (h : a.WellPosed) (hl : ∀ i : Fin m, 0 < lambda[i]) (v : Fin m → ℝ) :
    (localHessian a (ofMultipliers a w lambda)).form v ≤ 0 := by
  unfold localHessian
  rw [Mat.form_neg (fun i k => Mat.getElem_ofFn _ i k), Mat.form_congruence, neg_nonpos]
  refine Finset.sum_nonneg fun j _ => mul_nonneg ?_ (sq_nonneg _)
  rw [entry_ofFn]
  exact inverseCurvature_nonneg h hl j

/-- Where the artificial variables of the constraints are free they bend the dual function downwards,
too. -/
lemma form_withY_nonpos (lambda : Vector ℝ m) (hw : w.Valid) {spread withY : Mat ℝ m m}
    (hy : ∀ i k : Fin m, withY[i][k] =
      if i = k ∧ w.c[i] < lambda[i] then spread[i][k] - 1 / w.d[i] else spread[i][k])
    {v : Fin m → ℝ} (hs : spread.form v ≤ 0) : withY.form v ≤ 0 := by
  have entries : ∀ i k : Fin m, withY[i][k] =
      spread[i][k] + if i = k then (if w.c[i] < lambda[i] then -(1 / w.d[i]) else 0) else 0 := by
    intro i k
    rw [hy]
    by_cases hik : i = k
    · by_cases hc : w.c[i] < lambda[i]
      · rw [if_pos ⟨hik, hc⟩, if_pos hik, if_pos hc, sub_eq_add_neg]
      · rw [if_neg (fun h => hc h.2), if_pos hik, if_neg hc, add_zero]
    · rw [if_neg (fun h => hik h.1), if_neg hik, add_zero]
  rw [Mat.form_add_diagonal entries]
  refine add_nonpos hs (Finset.sum_nonpos fun i _ => mul_nonpos_of_nonpos_of_nonneg ?_ (sq_nonneg _))
  split
  · exact neg_nonpos.2 (one_div_pos.2 (hw.d_pos i)).le
  · exact le_refl 0

/-- The Hessian of the dual function is negative semidefinite. -/
theorem hessian_returns (h : a.WellPosed) (hw : w.Valid) (hl : ∀ i : Fin m, 0 < lambda[i]) :
    ((ofMultipliers a w lambda).hessian a w lambda).Returns fun hess => ∀ v, hess.form v ≤ 0 := by
  refine ⟨_, rfl, fun v => ?_⟩
  rw [Mat.ofEntries_entries]
  have hs := form_localHessian_nonpos (w := w) h hl v
  have hy := form_withY_nonpos lambda hw (fun i k => Mat.getElem_ofFn _ i k) hs
  split
  · rw [Mat.form_sub_outer (u := fun i => w.a[i]) (fun i k => Mat.getElem_ofFn _ i k)]
    have hz : (0 : ℝ) ≤ zScale / w.b0 := (div_pos zScale_pos hw.b0_pos).le
    exact (sub_le_self _ (mul_nonneg hz (sq_nonneg _))).trans hy
  · exact hy

/-- The Hessian of the dual function, entry by entry: what the free design variables and the free artificial
variables take away. -/
theorem hessian_entries (pt : DualPoint ℝ n m) :
    (pt.hessian a w lambda).Returns fun hess => ∀ i k : Fin m, hess[i][k] =
      -∑ j : Fin n, a.slopeAt pt.x i j * pt.inverseCurvature a j * a.slopeAt pt.x k j -
        (if i = k ∧ w.c[i] < lambda[i] then 1 / w.d[i] else 0) -
        (if 0 < pt.z then w.a[i] * w.a[k] * (zScale / w.b0) else 0) := by
  refine ⟨_, rfl, fun i k => ?_⟩
  rw [Mat.ofEntries_entries, ← entry_localHessian]
  by_cases hz : 0 < pt.z
  · rw [if_pos hz, if_pos hz, Mat.getElem_ofFn, Mat.getElem_ofFn]
    split
    · rfl
    · rw [sub_zero]
  · rw [if_neg hz, if_neg hz, Mat.getElem_ofFn, sub_zero]
    split
    · rfl
    · rw [sub_zero]

/-- The gradient of the dual function: the values of the relaxed constraints. -/
theorem gradient_returns (pt : DualPoint ℝ n m) :
    (pt.gradient a w).Returns fun gradient => ∀ i : Fin m,
      gradient[i] = (a.localSums pt.x)[i] - (a.b[i] + w.a[i] * pt.z + pt.y[i]) :=
  ⟨_, rfl, fun i => entry_ofFn _ i⟩

end MovingAsymptotes.DualPoint
