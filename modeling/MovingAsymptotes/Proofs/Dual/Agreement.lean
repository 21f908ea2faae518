import MovingAsymptotes.Proofs.Dual.Recovery
import MovingAsymptotes.Proofs.Kkt.Optimality

/-!
# Agreement of the dual and the primal-dual solution

Both methods look for a minimiser of the Lagrangian, each with multipliers of its own. The Lagrangian is
strictly convex between the asymptotes, so two minimisers are equal unless the constraints see a
difference between them: the value that each would gain by moving to the other adds up to
`∑ i, (lambda i - lambda' i) * (f' i - f i)`, which is positive for different minimisers. The conditions
on `y`, on the slacks and on the multipliers leave nothing of that sum above zero but the share of `z`.

There the two methods differ. In the problem that the residual measures, `z` has the weight `a0` alone;
the dual method gives it the curvature `b0 / zScale` as well. Designs agree as long as that does not
count, and otherwise the dual method solves a problem with another weight.

* `Approximation.designs_agree`: the designs agree if the dual method does not fall short in `z`.
* `Approximation.designs_agree_with_curvature`: they agree if the curvature of `z` counts as weight.
-/

namespace MovingAsymptotes

variable {n m : Nat} {a : Approximation ℝ n m} {w : Weights ℝ m}

/-- The minimiser that the dual method uses is stationary. -/
lemma DualPoint.stationary {lambda : Vector ℝ m} (ha : a.WellPosed)
    (hl : ∀ i : Fin m, 0 ≤ lambda[i]) : a.Stationary lambda (ofMultipliers a w lambda).x := by
  refine ⟨ofMultipliers_contains ha, fun x' hx' j => ?_⟩
  obtain ⟨lower, upper⟩ := held (w := w) ha hl j
  rcases lt_trichotomy (a.lagrangianGradient (ofMultipliers a w lambda).x (a.lagrangian lambda))[j] 0
    with hg | hg | hg
  · rw [upper hg]
    exact mul_nonneg_of_nonpos_of_nonpos hg.le (sub_nonpos.2 (hx' j).2)
  · rw [hg, zero_mul]
  · rw [lower hg]
    exact mul_nonneg hg.le (sub_nonneg.2 (hx' j).1)

section Artificial

variable {c d l l' y y' mu : ℝ}

/-- Stationarity and complementarity determine an artificial variable. -/
lemma artificial_eq (hd : 0 < d) (hy : 0 ≤ y) (hmu : 0 ≤ mu) (hs : c + d * y - mu - l = 0)
    (hc : mu * y = 0) : y = positivePart ((l - c) / d) := by
  rw [positivePart_eq]
  rcases mul_eq_zero.1 hc with rfl | rfl
  · have e : (l - c) / d = y := by
      rw [div_eq_iff hd.ne']
      linarith
    rw [e, max_eq_left hy]
  · exact (max_eq_right (div_nonpos_of_nonpos_of_nonneg (by linarith) hd.le)).symm

/-- An artificial variable grows with its multiplier. -/
lemma artificial_monotone (hd : 0 < d) :
    (l - l') * (positivePart ((l' - c) / d) - positivePart ((l - c) / d)) ≤ 0 := by
  simp only [positivePart_eq]
  have mono {u v : ℝ} (h : u ≤ v) : max ((u - c) / d) 0 ≤ max ((v - c) / d) 0 :=
    max_le_max_right 0 (div_le_div_of_nonneg_right (sub_le_sub_right h c) hd.le)
  rcases le_total l l' with h | h
  · exact mul_nonpos_of_nonpos_of_nonneg (sub_nonpos.2 h) (sub_nonneg.2 (mono h))
  · exact mul_nonpos_of_nonneg_of_nonpos (sub_nonneg.2 h) (sub_nonpos.2 (mono h))

/-- What a constraint contributes to the difference of two minimisers, less the share of `z`: nothing
above zero, for the minimisers violate it in `y` alone and a slack goes with no multiplier. -/
lemma constraint_nonpos {f f' b ai z z' eta s : ℝ} (hl : 0 ≤ l) (hl' : 0 ≤ l') (he : 0 ≤ eta)
    (hs : 0 ≤ s) (hf : f - (b + ai * z + y) + eta = 0) (hf' : f' - ai * z' - y' + s - b = 0)
    (hc : eta * l = 0) (hc' : l' * s = 0) (hy : (l - l') * (y' - y) ≤ 0) :
    (l - l') * (f' - f) ≤ (l - l') * ai * (z' - z) := by
  have apart : f' - f = ai * (z' - z) + (y' - y) + (eta - s) := by linarith
  have slack : (l - l') * (eta - s) = -(l * s) - l' * eta := by linarith
  calc (l - l') * (f' - f)
      = (l - l') * ai * (z' - z) + (l - l') * (y' - y) + (l - l') * (eta - s) := by
        rw [apart]
        ring
    _ ≤ (l - l') * ai * (z' - z) := by
        rw [slack]
        linarith [mul_nonneg hl hs, mul_nonneg hl' he]

/-- The share of `z` is not positive either if a weight `e` on top of `a0` is what the curvature makes of
one of the two values. -/
lemma common_nonpos {t t' a0 b0 e z z' zet : ℝ} (hb : 0 < b0) (hz : z = zScale * positivePart ((t - a0) / b0))
    (hz' : 0 ≤ z') (hzet : 0 ≤ zet) (ht' : a0 + e - zet - t' = 0) (hc : zet * z' = 0)
    (he : (b0 / zScale * z - e) * (z' - z) ≤ 0) : (t - t') * (z' - z) ≤ 0 := by
  have ten : (0 : ℝ) < zScale := DualPoint.zScale_pos
  -- The multipliers fall short of what `z` asks for only where `z` is zero.
  have short : t - a0 - b0 / zScale * z ≤ 0 ∧ (t - a0 - b0 / zScale * z) * z = 0 ∧ 0 ≤ z := by
    rw [hz, positivePart_eq]
    rcases le_total t a0 with h | h
    · rw [max_eq_right (div_nonpos_of_nonpos_of_nonneg (sub_nonpos.2 h) hb.le)]
      refine ⟨by linarith, by ring, by linarith⟩
    · have hq := div_nonneg (sub_nonneg.2 h) hb.le
      rw [max_eq_left hq]
      have e : b0 / zScale * (zScale * ((t - a0) / b0)) = t - a0 := by
        field_simp
      rw [e, sub_self]
      exact ⟨le_refl 0, zero_mul _, mul_nonneg ten.le hq⟩
  obtain ⟨hle, hzero, hz0⟩ := short
  have ht : t - t' = (t - a0 - b0 / zScale * z) + zet + (b0 / zScale * z - e) := by linarith
  calc (t - t') * (z' - z)
      = (t - a0 - b0 / zScale * z) * z' - zet * z + (b0 / zScale * z - e) * (z' - z) := by
        rw [ht]
        linarith
    _ ≤ 0 := by linarith [mul_nonpos_of_nonpos_of_nonneg hle hz', mul_nonneg hzet hz0]

end Artificial

/-- The dual conditions without relaxation: the gradient is made up by the multipliers of `0 ≤ lambda`, which
are positive only where `lambda` is zero. -/
lemma DualState.residual_zero_iff {s : DualState ℝ n m} :
    (s.residual 0).norm = 0 ↔ ∀ i : Fin m, s.gradient[i] + s.eta[i] = 0 ∧ s.eta[i] * s.lambda[i] = 0 := by
  show √(Tally.ofRows (s.rows 0)).squares = 0 ↔ _
  rw [Real.sqrt_eq_zero (Tally.squares_ofRows_nonneg _), Tally.squares_ofRows_eq_zero_iff]
  unfold DualState.rows
  simp only [forall_mem_flatMap_finRange, List.forall_mem_cons, List.not_mem_nil, IsEmpty.forall_iff,
    implies_true, and_true, sub_zero]

namespace Approximation

section Agreement

variable {draft : WeightDraft ℝ} {lambda eta : Vector ℝ m} {s : DualState ℝ n m} {pt : KktPoint ℝ n m}
  {r : Residual ℝ}

/-- The designs agree if the point solves the subproblem with the weight of `z` raised by some `e` that
does not overtake the curvature which the dual method gives `z`. -/
lemma designs_agree_of_weight (ha : a.WellPosed) (hw : w.Valid) (hl : ∀ i : Fin m, 0 ≤ lambda[i])
    (he : ∀ i : Fin m, 0 ≤ eta[i]) (hs : (DualState.ofMultipliers a w lambda eta).serial = .done s)
    (hd : (s.residual 0).norm = 0) (hp : pt.Admissible a) {e : ℝ}
    (hr : (a.residual { w with a0 := w.a0 + e } pt 0).serial = .done r) (hn : r.norm = 0)
    (hz : (w.b0 / zScale * (DualPoint.ofMultipliers a w lambda).z - e) *
      (pt.z - (DualPoint.ofMultipliers a w lambda).z) ≤ 0) :
    (DualPoint.ofMultipliers a w lambda).x = pt.x := by
  have rows : a.Rows { w with a0 := w.a0 + e } pt 0 (· = 0) := .of_residual hr hn
  have dual := DualState.residual_zero_iff.1 hd
  cases hs
  refine (DualPoint.stationary ha hl).unique (hp.stationary rows) ha hl hp.lambda_nonneg ?_
  let point := DualPoint.ofMultipliers a w lambda
  have hy : ∀ i : Fin m, point.y[i] = positivePart ((lambda[i] - w.c[i]) / w.d[i]) :=
    fun i => entry_ofFn _ i
  have each : ∀ i : Fin m, (lambda[i] - pt.lambda[i]) *
      ((a.localSums pt.x)[i] - (a.localSums point.x)[i]) ≤
        (lambda[i] - pt.lambda[i]) * w.a[i] * (pt.z - point.z) := by
    intro i
    obtain ⟨gradient, complementary⟩ := dual i
    have feasible := rows.shared.feasible i
    have artificial := rows.shared.artificialSign i
    have slack := rows.shared.slack i
    rw [entry_ofFn] at gradient
    unfold violations at feasible
    rw [entry_ofFn] at feasible
    rw [sub_zero] at artificial slack
    refine constraint_nonpos (hl i) (hp.lambda_nonneg i) (he i) (hp.s_nonneg i) gradient feasible
      complementary slack ?_
    rw [hy, artificial_eq (hw.d_pos i) (hp.y_nonneg i) (hp.mu_nonneg i) (rows.shared.artificial i)
      artificial]
    exact artificial_monotone (hw.d_pos i)
  have common := rows.shared.commonSign
  rw [sub_zero] at common
  calc ∑ i : Fin m, (lambda[i] - pt.lambda[i]) *
        ((a.localSums pt.x)[i] - (a.localSums point.x)[i])
      ≤ ∑ i : Fin m, (lambda[i] - pt.lambda[i]) * w.a[i] * (pt.z - point.z) :=
        Finset.sum_le_sum fun i _ => each i
    _ = (dot lambda w.a - dot w.a pt.lambda) * (pt.z - point.z) := by
        rw [← Finset.sum_mul, dot_eq_sum, dot_eq_sum, ← Finset.sum_sub_distrib]
        congr 1
        exact Finset.sum_congr rfl fun i _ => by ring
    _ ≤ 0 := common_nonpos hw.b0_pos rfl hp.z_nonneg hp.zet_nonneg rows.shared.common common hz

/-- The dual and the primal-dual solution have the same design if the dual method makes no use of `z`, or
at least as much use of it. -/
theorem designs_agree (ha : a.WellPosed) (hw : draft.validate m = .ok w)
    (hl : ∀ i : Fin m, 0 ≤ lambda[i]) (he : ∀ i : Fin m, 0 ≤ eta[i])
    (hs : (DualState.ofMultipliers a w lambda eta).serial = .done s) (hd : (s.residual 0).norm = 0)
    (hp : pt.Admissible a) (hr : (a.residual w pt 0).serial = .done r) (hn : r.norm = 0)
    (hz : (DualPoint.ofMultipliers a w lambda).z = 0 ∨ pt.z ≤ (DualPoint.ofMultipliers a w lambda).z) :
    (DualPoint.ofMultipliers a w lambda).x = pt.x := by
  have hv := (WeightDraft.validate_eq_ok_iff.1 hw).2
  have same : { w with a0 := w.a0 + 0 } = w := by rw [add_zero]
  apply designs_agree_of_weight ha hv hl he hs hd hp (same ▸ hr) hn
  rw [sub_zero]
  rcases hz with hz | hz
  · rw [hz, mul_zero, zero_mul]
  · have hc : 0 ≤ w.b0 / zScale := div_nonneg hv.b0_pos.le (by unfold zScale; norm_num)
    have hnonneg : 0 ≤ (DualPoint.ofMultipliers a w lambda).z := hp.z_nonneg.trans hz
    exact mul_nonpos_of_nonneg_of_nonpos (mul_nonneg hc hnonneg) (sub_nonpos.2 hz)

/-- The problem that the dual method solves gives `z` a weight that grows with it. -/
theorem designs_agree_with_curvature (ha : a.WellPosed) (hw : draft.validate m = .ok w)
    (hl : ∀ i : Fin m, 0 ≤ lambda[i]) (he : ∀ i : Fin m, 0 ≤ eta[i])
    (hs : (DualState.ofMultipliers a w lambda eta).serial = .done s) (hd : (s.residual 0).norm = 0)
    (hp : pt.Admissible a)
    (hr : (a.residual { w with a0 := w.a0 + w.b0 / zScale * pt.z } pt 0).serial = .done r)
    (hn : r.norm = 0) : (DualPoint.ofMultipliers a w lambda).x = pt.x := by
  have hv := (WeightDraft.validate_eq_ok_iff.1 hw).2
  apply designs_agree_of_weight ha hv hl he hs hd hp hr hn
  have hc : 0 ≤ w.b0 / zScale := div_nonneg hv.b0_pos.le (by unfold zScale; norm_num)
  have square := mul_nonneg hc (sq_nonneg (pt.z - (DualPoint.ofMultipliers a w lambda).z))
  linarith

end Agreement

section Sample

lemma sample_plam (b l : ℝ) : ((sample b).lagrangian (.singleton l)).plam[(0 : Fin 1)] = 1 + 3 * l := by
  rw [entry_plam, Fin.sum_univ_one]
  rfl

lemma sample_qlam (b l : ℝ) : ((sample b).lagrangian (.singleton l)).qlam[(0 : Fin 1)] = 1 := by
  rw [entry_qlam, Fin.sum_univ_one]
  show (1 : ℝ) + 0 * l = 1
  ring

/-- The minimiser of the sample between the asymptotes, for a multiplier `l`. -/
lemma sample_unclamped (b : ℝ) {l r : ℝ} (hr : 1 / 2 ≤ r) (hl : 1 + 3 * l = r ^ 2) :
    DualPoint.unclamped (sample b) ((sample b).lagrangian (.singleton l)) 0 = 3 / (r + 1) := by
  unfold DualPoint.unclamped
  rw [sample_plam, sample_qlam, hl, scalar_sqrt, scalar_sqrt, Real.sqrt_sq (by linarith), Real.sqrt_one]
  show (r * 0 + 1 * 3) / (r + 1) = 3 / (r + 1)
  ring

/-- The minimiser for a multiplier `l` of the sample. -/
lemma sample_design (b : ℝ) {l r : ℝ} (hr : 1 / 2 ≤ r) (hl : 1 + 3 * l = r ^ 2) (hlo : 1 / 2 ≤ 3 / (r + 1)) :
    (DualPoint.ofMultipliers (sample b) sampleWeights (.singleton l)).x = .singleton (3 / (r + 1)) := by
  refine vector_ext fun j => ?_
  rw [Fin.eq_zero j]
  have hc : (DualPoint.ofMultipliers (sample b) sampleWeights (.singleton l)).x[(0 : Fin 1)] =
      clamp (1 / 2) 2 (3 / (r + 1)) := by
    rw [← sample_unclamped b hr hl]
    exact entry_ofFn _ _
  have hhi : 3 / (r + 1) ≤ 2 := by
    rw [div_le_iff₀ (by linarith)]
    linarith
  rw [hc, clamp_eq, min_eq_left hhi, max_eq_left hlo]
  rfl

/-- The gradient at a multiplier that leaves the artificial variable of the constraint at zero. -/
lemma sample_gradient {b l x z : ℝ} (hl : l ≤ 1000)
    (hx : (DualPoint.ofMultipliers (sample b) sampleWeights (.singleton l)).x = .singleton x)
    (hz : (DualPoint.ofMultipliers (sample b) sampleWeights (.singleton l)).z = z) {gradient : Vector ℝ 1}
    (hg : ((DualPoint.ofMultipliers (sample b) sampleWeights (.singleton l)).gradient (sample b)
      sampleWeights).serial = .done gradient) : gradient[(0 : Fin 1)] = 3 / (3 - x) - (b + z) := by
  have hy : (DualPoint.ofMultipliers (sample b) sampleWeights (.singleton l)).y[(0 : Fin 1)] =
      positivePart ((l - 1000) / 1) := entry_ofFn _ _
  rw [div_one, positivePart_eq, max_eq_right (sub_nonpos.2 hl)] at hy
  rw [(DualPoint.gradient_returns _).of_serial hg, hx, hz, hy, sample_localSums]
  show 3 / (3 - x) - (b + 1 * z + 0) = 3 / (3 - x) - (b + z)
  ring

/-- The dual conditions hold for a multiplier if `z` makes up for the constraint at the minimiser. -/
lemma sample_dual {b l x z : ℝ} (hl : l ≤ 1000)
    (hx : (DualPoint.ofMultipliers (sample b) sampleWeights (.singleton l)).x = .singleton x)
    (hz : (DualPoint.ofMultipliers (sample b) sampleWeights (.singleton l)).z = z) (hf : 3 / (3 - x) = b + z) :
    ∃ s, (DualState.ofMultipliers (sample b) sampleWeights (.singleton l) (.singleton 0)).serial = .done s ∧
      (s.residual 0).norm = 0 := by
  let point := DualPoint.ofMultipliers (sample b) sampleWeights (.singleton l)
  obtain ⟨gradient, hs, -⟩ := DualPoint.gradient_returns (a := sample b) (w := sampleWeights) point
  refine ⟨⟨.singleton l, .singleton 0, point, gradient⟩, ?_, DualState.residual_zero_iff.2 fun i => ?_⟩
  · unfold DualState.ofMultipliers
    rw [Program.serial_bind, hs]
    rfl
  · rw [Fin.eq_zero i]
    constructor
    · show gradient[(0 : Fin 1)] + 0 = 0
      rw [sample_gradient hl hx hz hs, hf, sub_self, add_zero]
    · exact zero_mul l

lemma sample_common (b l : ℝ) :
    (DualPoint.ofMultipliers (sample b) sampleWeights (.singleton l)).z = 10 * max (l - 1) 0 := by
  show zScale * positivePart ((dot (.singleton l) (.singleton 1) - 1) / 1) = _
  rw [dot_eq_sum, Fin.sum_univ_one, div_one, positivePart_eq]
  show zScale * max (l * 1 - 1) 0 = _
  unfold zScale
  norm_num

/-- With `b = 3 / 2` the constraint holds without `z`, and both methods find the design `1`. -/
theorem designs_agree_without_common :
    (DualPoint.ofMultipliers (sample (3 / 2)) sampleWeights (.singleton 1)).x = (samplePoint 0).x := by
  have hz : (DualPoint.ofMultipliers (sample (3 / 2)) sampleWeights (.singleton 1)).z = 0 := by
    rw [sample_common]
    norm_num
  have hx := sample_design (3 / 2) (l := 1) (r := 2) (by norm_num) (by norm_num) (by norm_num)
  obtain ⟨s, hs, hd⟩ := sample_dual (by norm_num) hx hz (by norm_num)
  have hr := (sample (3 / 2)).residual_serial sampleWeights (samplePoint 0) 0
  have hn := samplePoint_residual 0
  rw [sub_zero] at hn
  refine designs_agree (sample_wellPosed _) sampleWeights_validate (fun i => ?_) (fun i => ?_) hs hd
    (samplePoint_admissible _ (le_refl 0)) hr hn (.inl hz)
  · rw [Fin.eq_zero i]
    exact zero_le_one
  · rw [Fin.eq_zero i]
    exact le_refl 0

/-- With `b = -46 / 3` the constraint needs `z`. The solution has the design `1`, and the dual method, to
which `z` is dearer, finds the design `3 / 4`. -/
theorem designs_differ_in_common :
    let a := sample (-46 / 3)
    let pt := samplePoint (101 / 6)
    a.WellPosed ∧ (⟨1, 1, #[1], #[1000], #[1]⟩ : WeightDraft ℝ).validate 1 = .ok sampleWeights ∧
      (∃ s, (DualState.ofMultipliers a sampleWeights (.singleton (8 / 3)) (.singleton 0)).serial = .done s ∧
        (s.residual 0).norm = 0) ∧
      pt.Admissible a ∧
      (∃ r, (a.residual sampleWeights pt 0).serial = .done r ∧ r.norm = 0) ∧
      (DualPoint.ofMultipliers a sampleWeights (.singleton (8 / 3))).x ≠ pt.x := by
  have hx := sample_design (-46 / 3) (l := 8 / 3) (r := 3) (by norm_num) (by norm_num) (by norm_num)
  have hz := sample_common (-46 / 3) (8 / 3)
  have hn := samplePoint_residual (101 / 6)
  rw [show (3 / 2 - 101 / 6 : ℝ) = -46 / 3 by norm_num] at hn
  refine ⟨sample_wellPosed _, sampleWeights_validate, sample_dual (by norm_num) hx hz (by norm_num),
    samplePoint_admissible _ (by norm_num), ⟨_, residual_serial _ _ _ _, hn⟩, ?_⟩
  rw [hx]
  intro h
  have entries : (3 / (3 + 1) : ℝ) = 1 := congrArg (fun v : Vector ℝ 1 => v[(0 : Fin 1)]) h
  norm_num at entries

end Sample

end Approximation

end MovingAsymptotes
