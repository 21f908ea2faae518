import MovingAsymptotes.Proofs.Dual.Minimiser

/-!
# The derivative of the gradient of the dual function

The minimiser of the Lagrangian depends on the multipliers, and the gradient of the dual function through
it. A design variable between its move limits follows the point at which the Lagrangian is flat, so it
moves against the slopes of the constraints, at a rate that its curvature tells; one that a move limit
holds does not move. An artificial variable moves with its multiplier unless zero holds it. Put together,
the rates at which the values of the constraints change are the entries of the Hessian.

At a kink, where a variable is about to be held or released, there is no derivative; `DualPoint.Smooth`
leaves these multipliers out.

* `HasSlopes`: functions of several variables with a derivative, by their partial derivatives.
* `DualPoint.design_slopes`, `DualPoint.artificial_slopes`, `DualPoint.common_slopes`: the minimiser.
* `DualPoint.gradient_hasFDerivAt`: the Hessian is the derivative of the gradient.
-/

namespace MovingAsymptotes

open Filter Topology

variable {n m : Nat}

/-- A function of several variables has a derivative, with the given slopes in their directions. -/
def HasSlopes (f : (Fin m → ℝ) → ℝ) (slopes : Fin m → ℝ) (v : Fin m → ℝ) : Prop :=
  HasFDerivAt f (∑ k, slopes k • ContinuousLinearMap.proj k : (Fin m → ℝ) →L[ℝ] ℝ) v

namespace HasSlopes

variable {f g : (Fin m → ℝ) → ℝ} {c d : Fin m → ℝ} {v : Fin m → ℝ}

/-- The derivative is known by its values. -/
lemma of_hasFDerivAt {L : (Fin m → ℝ) →L[ℝ] ℝ} (h : HasFDerivAt f L v) (hL : ∀ u, L u = ∑ k, c k * u k) :
    HasSlopes f c v := by
  refine h.congr_fderiv (ContinuousLinearMap.ext fun u => ?_)
  rw [hL, sum_apply]
  rfl

lemma derivative_apply (c u : Fin m → ℝ) :
    (∑ k, c k • ContinuousLinearMap.proj k : (Fin m → ℝ) →L[ℝ] ℝ) u = ∑ k, c k * u k := by
  rw [sum_apply]
  rfl

lemma congr_slopes (h : HasSlopes f c v) (hc : ∀ k, c k = d k) : HasSlopes f d v := by
  rwa [← funext hc]

/-- Only the values close by count. -/
lemma congr_values (h : HasSlopes f c v) (he : ∀ᶠ u in 𝓝 v, g u = f u) : HasSlopes g c v :=
  HasFDerivAt.congr_of_eventuallyEq h he

lemma continuousAt (h : HasSlopes f c v) : ContinuousAt f v := HasFDerivAt.continuousAt h

lemma const (b : ℝ) : HasSlopes (fun _ => b) (fun _ => 0) v :=
  of_hasFDerivAt (hasFDerivAt_const b v) fun u => by simp

lemma affine (b : ℝ) (c : Fin m → ℝ) : HasSlopes (fun u => b + ∑ k, c k * u k) c v := by
  have linear : HasSlopes (fun u => ∑ k, c k * u k) c v :=
    (ContinuousLinearMap.hasFDerivAt _).congr_of_eventuallyEq (.of_forall fun u => (derivative_apply c u).symm)
  exact HasFDerivAt.const_add b linear

lemma add (hf : HasSlopes f c v) (hg : HasSlopes g d v) :
    HasSlopes (fun u => f u + g u) (fun k => c k + d k) v :=
  of_hasFDerivAt (HasFDerivAt.fun_add hf hg) fun u => by
    simp only [add_apply, derivative_apply, add_mul, Finset.sum_add_distrib]

lemma sub (hf : HasSlopes f c v) (hg : HasSlopes g d v) :
    HasSlopes (fun u => f u - g u) (fun k => c k - d k) v :=
  of_hasFDerivAt (HasFDerivAt.fun_sub hf hg) fun u => by
    simp only [sub_apply, derivative_apply, sub_mul, Finset.sum_sub_distrib]

lemma const_mul (b : ℝ) (h : HasSlopes f c v) : HasSlopes (fun u => b * f u) (fun k => b * c k) v :=
  of_hasFDerivAt (HasFDerivAt.const_mul h b) fun u => by
    simp only [smul_apply, derivative_apply, smul_eq_mul, Finset.mul_sum, mul_assoc]

lemma mul (hf : HasSlopes f c v) (hg : HasSlopes g d v) :
    HasSlopes (fun u => f u * g u) (fun k => f v * d k + g v * c k) v :=
  of_hasFDerivAt (HasFDerivAt.fun_mul hf hg) fun u => by
    simp only [add_apply, smul_apply, derivative_apply, smul_eq_mul,
      add_mul, Finset.sum_add_distrib, Finset.mul_sum, mul_assoc]

lemma comp {h : ℝ → ℝ} {h' : ℝ} (hh : HasDerivAt h h' (f v)) (hf : HasSlopes f c v) :
    HasSlopes (fun u => h (f u)) (fun k => h' * c k) v :=
  of_hasFDerivAt (hh.comp_hasFDerivAt v hf) fun u => by
    simp only [smul_apply, derivative_apply, smul_eq_mul, Finset.mul_sum, mul_assoc]

lemma sum {k : Nat} {f : Fin k → (Fin m → ℝ) → ℝ} {c : Fin k → Fin m → ℝ} (h : ∀ j, HasSlopes (f j) (c j) v) :
    HasSlopes (fun u => ∑ j, f j u) (fun l => ∑ j, c j l) v :=
  of_hasFDerivAt (HasFDerivAt.fun_sum fun j _ => h j) fun u => by
    rw [sum_apply]
    simp only [derivative_apply, Finset.sum_mul]
    exact Finset.sum_comm

lemma sqrt (h : HasSlopes f c v) (hf : 0 < f v) : HasSlopes (fun u => √(f u)) (fun k => 1 / (2 * √(f v)) * c k) v :=
  h.comp (Real.hasDerivAt_sqrt hf.ne')

lemma inv (h : HasSlopes f c v) (hf : f v ≠ 0) : HasSlopes (fun u => (f u)⁻¹) (fun k => -(f v ^ 2)⁻¹ * c k) v :=
  h.comp (hasDerivAt_inv hf)

/-- Away from zero, the part above zero grows as the function does or not at all. -/
lemma positivePart (h : HasSlopes f c v) (hf : f v ≠ 0) :
    HasSlopes (fun u => MovingAsymptotes.positivePart (f u)) (fun k => if 0 < f v then c k else 0) v := by
  simp only [positivePart_eq]
  rcases lt_or_gt_of_ne hf with hlt | hgt
  · refine ((const 0).congr_values ?_).congr_slopes fun k => (if_neg hlt.not_gt).symm
    filter_upwards [h.continuousAt.eventually_lt_const hlt] with u hu
    exact max_eq_right hu.le
  · refine (h.congr_values ?_).congr_slopes fun k => (if_pos hgt).symm
    filter_upwards [h.continuousAt.eventually_const_lt hgt] with u hu
    exact max_eq_left hu.le

end HasSlopes

section Poles

variable {low upp x : ℝ}

/-- The rate at which the weighted midpoint of two poles moves with its weights: that of the point at which
two terms with these poles balance. -/
lemma midpoint_rate {s t c d : ℝ} (hs : 0 < s) (ht : 0 < t) (hlt : low < upp)
    (hx : x = (s * low + t * upp) / (s + t)) :
    (low * s + upp * t) * (-((s + t) ^ 2)⁻¹ * (1 / (2 * s) * c + 1 / (2 * t) * d)) +
        (s + t)⁻¹ * (low * (1 / (2 * s) * c) + upp * (1 / (2 * t) * d)) =
      -(1 / (2.0 * (s * s) / ((upp - x) * (upp - x) * (upp - x)) +
          2.0 * (t * t) / ((x - low) * (x - low) * (x - low)))) *
        (c / ((upp - x) * (upp - x)) - d / ((x - low) * (x - low))) := by
  obtain ⟨g, hg, rfl⟩ : ∃ g, 0 < g ∧ upp = low + g := ⟨upp - low, sub_pos.2 hlt, by ring⟩
  have hst : s + t ≠ 0 := (add_pos hs ht).ne'
  -- The midpoint divides the distance of the poles in the ratio of the weights.
  have above : low + g - x = s * g / (s + t) := by
    rw [hx]
    field_simp
    ring
  have below : x - low = t * g / (s + t) := by
    rw [hx]
    field_simp
    ring
  have two : (2.0 : ℝ) = 2 := by norm_num
  have curvature : 2 * (s * s) / (s * g / (s + t) * (s * g / (s + t)) * (s * g / (s + t))) +
      2 * (t * t) / (t * g / (s + t) * (t * g / (s + t)) * (t * g / (s + t))) =
        2 * (s + t) ^ 4 / (s * t * g ^ 3) := by
    field_simp
    ring
  rw [above, below, two, curvature]
  field_simp
  ring

/-- The weighted midpoint of two poles, if the weights are the square roots of two functions. -/
lemma HasSlopes.midpoint {P Q : (Fin m → ℝ) → ℝ} {c d v : Fin m → ℝ} (hP : HasSlopes P c v)
    (hQ : HasSlopes Q d v) (hp : 0 < P v) (hq : 0 < Q v) (hlt : low < upp)
    (hx : x = (√(P v) * low + √(Q v) * upp) / (√(P v) + √(Q v))) :
    HasSlopes (fun u => (√(P u) * low + √(Q u) * upp) / (√(P u) + √(Q u)))
      (fun k => -(1 / (2.0 * P v / ((upp - x) * (upp - x) * (upp - x)) +
          2.0 * Q v / ((x - low) * (x - low) * (x - low)))) *
        (c k / ((upp - x) * (upp - x)) - d k / ((x - low) * (x - low)))) v := by
  have roots : 0 < √(P v) + √(Q v) := add_pos (Real.sqrt_pos.2 hp) (Real.sqrt_pos.2 hq)
  have weighted := ((hP.sqrt hp).const_mul low).add ((hQ.sqrt hq).const_mul upp)
  have quotient := weighted.mul (((hP.sqrt hp).add (hQ.sqrt hq)).inv roots.ne')
  refine (quotient.congr_values (.of_forall fun u => ?_)).congr_slopes fun k => ?_
  · rw [div_eq_mul_inv]
    ring
  · rw [midpoint_rate (Real.sqrt_pos.2 hp) (Real.sqrt_pos.2 hq) hlt hx, Real.mul_self_sqrt hp.le,
      Real.mul_self_sqrt hq.le]

/-- The slope of a term with two poles. -/
lemma hasDerivAt_term (p q : ℝ) (hu : upp - x ≠ 0) (hl : x - low ≠ 0) :
    HasDerivAt (fun t => p * (1 / (upp - t)) + q * (1 / (t - low)))
      (p / ((upp - x) * (upp - x)) - q / ((x - low) * (x - low))) x := by
  have above := ((hasDerivAt_const x (1 : ℝ)).fun_div ((hasDerivAt_id' x).const_sub upp) hu).const_mul p
  have below := ((hasDerivAt_const x (1 : ℝ)).fun_div ((hasDerivAt_id' x).sub_const low) hl).const_mul q
  refine (above.fun_add below).congr_deriv ?_
  field_simp
  ring

end Poles

namespace DualPoint

variable {a : Approximation ℝ n m} {w : Weights ℝ m} {lambda : Vector ℝ m} {v : Fin m → ℝ}

/-- Multipliers at which no variable of the Lagrangian is about to be held or released. -/
structure Smooth (a : Approximation ℝ n m) (w : Weights ℝ m) (lambda : Vector ℝ m) : Prop where
  unclamped_ne_alfa : ∀ j : Fin n, unclamped a (a.lagrangian lambda) j ≠ a.limits.alfa[j]
  unclamped_ne_beta : ∀ j : Fin n, unclamped a (a.lagrangian lambda) j ≠ a.limits.beta[j]
  lambda_ne : ∀ i : Fin m, lambda[i] ≠ w.c[i]
  excess_ne : ∑ i : Fin m, lambda[i] * w.a[i] ≠ w.a0

lemma entry_x (a : Approximation ℝ n m) (w : Weights ℝ m) (lambda : Vector ℝ m) (j : Fin n) :
    (ofMultipliers a w lambda).x[j] =
      max (min (unclamped a (a.lagrangian lambda) j) a.limits.beta[j]) a.limits.alfa[j] := by
  rw [← clamp_eq]
  exact entry_ofFn _ j

/-- The point at which the Lagrangian is flat moves against the slopes of the constraints. -/
lemma unclamped_slopes (ha : a.WellPosed) (hl : ∀ i, 0 ≤ v i) (j : Fin n) {x : ℝ}
    (hx : x = unclamped a (a.lagrangian (.ofFn v)) j) :
    HasSlopes (fun u => unclamped a (a.lagrangian (.ofFn u)) j)
      (fun k => -(1 / (2.0 * (a.lagrangian (.ofFn v)).plam[j] / ((a.asymptotes.upp[j] - x) *
            (a.asymptotes.upp[j] - x) * (a.asymptotes.upp[j] - x)) +
          2.0 * (a.lagrangian (.ofFn v)).qlam[j] / ((x - a.asymptotes.low[j]) *
            (x - a.asymptotes.low[j]) * (x - a.asymptotes.low[j])))) *
        (a.p[j][k] / ((a.asymptotes.upp[j] - x) * (a.asymptotes.upp[j] - x)) -
          a.q[j][k] / ((x - a.asymptotes.low[j]) * (x - a.asymptotes.low[j])))) v := by
  have nonneg : ∀ i : Fin m, 0 ≤ (Vector.ofFn v)[i] := fun i => (entry_ofFn v i).symm ▸ hl i
  have plam : HasSlopes (fun u => (a.lagrangian (.ofFn u)).plam[j]) (fun k => a.p[j][k]) v := by
    simp only [Approximation.entry_plam, entry_ofFn]
    exact .affine _ _
  have qlam : HasSlopes (fun u => (a.lagrangian (.ofFn u)).qlam[j]) (fun k => a.q[j][k]) v := by
    simp only [Approximation.entry_qlam, entry_ofFn]
    exact .affine _ _
  have poles := (ha.low_lt_alfa j).trans ((ha.alfa_lt_beta j).trans (ha.beta_lt_upp j))
  exact plam.midpoint qlam (ha.plam_pos nonneg j) (ha.qlam_pos nonneg j) poles hx

/-- A free design variable moves against the slopes of the constraints, at the rate of its inverse
curvature, and a held one does not move. -/
theorem design_slopes (ha : a.WellPosed) (hl : ∀ i, 0 ≤ v i) (hs : Smooth a w (.ofFn v)) (j : Fin n) :
    let pt := ofMultipliers a w (.ofFn v)
    HasSlopes (fun u => (ofMultipliers a w (.ofFn u)).x[j])
      (fun k => -pt.inverseCurvature a j * a.slopeAt pt.x k j) v := by
  intro pt
  have slopes := unclamped_slopes ha hl j rfl
  have entry := entry_x a w (.ofFn v) j
  have box := ha.alfa_lt_beta j
  have still {b : ℝ} (hb : b = a.limits.alfa[j] ∨ b = a.limits.beta[j])
      (he : ∀ᶠ u in 𝓝 v, (ofMultipliers a w (.ofFn u)).x[j] = b) :
      HasSlopes (fun u => (ofMultipliers a w (.ofFn u)).x[j])
        (fun k => -pt.inverseCurvature a j * a.slopeAt pt.x k j) v := by
    have held : ¬ pt.IsFree a j := by
      have here : pt.x[j] = b := he.self_of_nhds
      rintro ⟨h₁, h₂⟩
      rw [here] at h₁ h₂
      rcases hb with rfl | rfl
      · exact lt_irrefl _ h₁
      · exact lt_irrefl _ h₂
    refine ((HasSlopes.const b).congr_values he).congr_slopes fun k => ?_
    rw [inverseCurvature, if_neg held, neg_zero, zero_mul]
  rcases lt_or_gt_of_ne (hs.unclamped_ne_alfa j) with below | above
  · refine still (.inl rfl) ?_
    filter_upwards [slopes.continuousAt.eventually_lt_const below] with u hu
    rw [entry_x]
    exact max_eq_right ((min_le_left _ _).trans hu.le)
  · rcases lt_or_gt_of_ne (hs.unclamped_ne_beta j) with inside | beyond
    · have here : pt.x[j] = unclamped a (a.lagrangian (.ofFn v)) j := by
        rw [entry, min_eq_left inside.le, max_eq_left (le_of_lt above)]
      have free : pt.IsFree a j := by
        unfold IsFree
        rw [here]
        exact ⟨above, inside⟩
      refine ((unclamped_slopes ha hl j here).congr_values ?_).congr_slopes fun k => ?_
      · filter_upwards [slopes.continuousAt.eventually_lt_const inside,
          slopes.continuousAt.eventually_const_lt above] with u h₁ h₂
        rw [entry_x, min_eq_left h₁.le, max_eq_left h₂.le]
      · rw [inverseCurvature, if_pos free]
        rfl
    · refine still (.inr rfl) ?_
      filter_upwards [slopes.continuousAt.eventually_const_lt beyond] with u hu
      rw [entry_x, min_eq_right hu.le, max_eq_left box.le]

/-- So the value of a constraint falls where the slopes of two constraints agree. -/
lemma localSums_slopes (ha : a.WellPosed) (hl : ∀ i, 0 ≤ v i) (hs : Smooth a w (.ofFn v)) (i : Fin m) :
    let pt := ofMultipliers a w (.ofFn v)
    HasSlopes (fun u => (a.localSums (ofMultipliers a w (.ofFn u)).x)[i])
      (fun k => ∑ j : Fin n, a.slopeAt pt.x i j * (-pt.inverseCurvature a j * a.slopeAt pt.x k j)) v := by
  intro pt
  simp only [Approximation.entry_localSums]
  have inside : a.limits.Contains pt.x := ofMultipliers_contains ha
  exact .sum fun j => (design_slopes ha hl hs j).comp
    (hasDerivAt_term _ _ (ha.above_pos inside j).ne' (ha.below_pos inside j).ne')

/-- An artificial variable moves with its own multiplier, unless zero holds it. -/
lemma artificial_slopes (hw : w.Valid) (hs : Smooth a w (.ofFn v)) (i : Fin m) :
    HasSlopes (fun u => (ofMultipliers a w (.ofFn u)).y[i])
      (fun k => if i = k ∧ w.c[i] < v i then 1 / w.d[i] else 0) v := by
  have hd := hw.d_pos i
  have kink : v i ≠ w.c[i] := entry_ofFn v i ▸ hs.lambda_ne i
  have linear : HasSlopes (fun u => (u i - w.c[i]) / w.d[i]) (fun k => if i = k then 1 / w.d[i] else 0) v := by
    refine (HasSlopes.affine (-w.c[i] / w.d[i]) _).congr_values (.of_forall fun u => ?_)
    simp only [ite_mul, zero_mul, Finset.sum_ite_eq, Finset.mem_univ, if_true]
    ring
  refine ((linear.positivePart (div_ne_zero (sub_ne_zero.2 kink) hd.ne')).congr_values
    (.of_forall fun u => ?_)).congr_slopes fun k => ?_
  · have entry : (ofMultipliers a w (.ofFn u)).y[i] =
        positivePart (((Vector.ofFn u)[i] - w.c[i]) / w.d[i]) := entry_ofFn _ i
    rw [entry, entry_ofFn]
  · have free : 0 < (v i - w.c[i]) / w.d[i] ↔ w.c[i] < v i := by
      rw [div_pos_iff_of_pos_right hd, sub_pos]
    rw [if_congr free rfl rfl, ← ite_and, if_congr and_comm rfl rfl]

/-- The shared artificial variable moves with the multipliers, in the ratio of its shares, unless zero
holds it. -/
lemma common_slopes (hw : w.Valid) (hs : Smooth a w (.ofFn v)) :
    HasSlopes (fun u => (ofMultipliers a w (.ofFn u)).z)
      (fun k => if 0 < (ofMultipliers a w (.ofFn v)).z then w.a[k] * (zScale / w.b0) else 0) v := by
  have weight : 0 < w.b0 / zScale := div_pos hw.b0_pos zScale_pos
  have kink : ∑ i, v i * w.a[i] - w.a0 ≠ 0 := by
    have excess := hs.excess_ne
    simp only [entry_ofFn] at excess
    exact sub_ne_zero.2 excess
  have linear : HasSlopes (fun u => (∑ i, u i * w.a[i] - w.a0) / (w.b0 / zScale))
      (fun k => w.a[k] * (zScale / w.b0)) v := by
    refine (HasSlopes.affine (-w.a0 / (w.b0 / zScale)) _).congr_values (.of_forall fun u => ?_)
    rw [sub_div, Finset.sum_div, sub_eq_neg_add, neg_div]
    congr 1
    refine Finset.sum_congr rfl fun i _ => ?_
    rw [div_div_eq_mul_div]
    ring
  have entry (u : Fin m → ℝ) : (ofMultipliers a w (.ofFn u)).z =
      positivePart ((∑ i, u i * w.a[i] - w.a0) / (w.b0 / zScale)) := by
    rw [common_eq]
    simp only [entry_ofFn]
  refine ((linear.positivePart (div_ne_zero kink weight.ne')).congr_values
    (.of_forall entry)).congr_slopes fun k => ?_
  have free : 0 < (∑ i, v i * w.a[i] - w.a0) / (w.b0 / zScale) ↔ 0 < (ofMultipliers a w (.ofFn v)).z := by
    rw [entry, positivePart_eq]
    exact ⟨fun h => lt_max_of_lt_left h, fun h => (lt_max_iff.1 h).resolve_right (lt_irrefl _)⟩
  rw [if_congr free rfl rfl]

/-- Away from the kinks the gradient of the dual function has a derivative in the multipliers, and its matrix
is the Hessian. -/
theorem gradient_hasFDerivAt (ha : a.WellPosed) (hw : w.Valid) (hl : ∀ i : Fin m, 0 < lambda[i])
    (hs : Smooth a w lambda) :
    ∃ (gradient : (Fin m → ℝ) → Fin m → ℝ) (hess : Mat ℝ m m),
      (∀ v, ((ofMultipliers a w (.ofFn v)).gradient a w).serial = .done (.ofFn (gradient v))) ∧
      ((ofMultipliers a w lambda).hessian a w lambda).serial = .done hess ∧
      HasFDerivAt gradient (Matrix.toLin' hess.toMatrix).toContinuousLinearMap fun i => lambda[i] := by
  obtain ⟨v, rfl⟩ : ∃ v : Fin m → ℝ, lambda = .ofFn v :=
    ⟨fun i => lambda[i], vector_ext fun i => (entry_ofFn (fun i : Fin m => lambda[i]) i).symm⟩
  let pt := ofMultipliers a w (.ofFn v)
  obtain ⟨hess, hhess, entries⟩ : (pt.hessian a w (.ofFn v)).Returns _ := hessian_entries pt
  refine ⟨fun u i => (a.localSums (ofMultipliers a w (.ofFn u)).x)[i] -
      (a.b[i] + w.a[i] * (ofMultipliers a w (.ofFn u)).z + (ofMultipliers a w (.ofFn u)).y[i]), hess,
    fun _ => rfl, hhess, ?_⟩
  have point : (fun i : Fin m => (Vector.ofFn v)[i]) = v := funext fun i => entry_ofFn v i
  have nonneg (i : Fin m) : 0 ≤ v i := entry_ofFn v i ▸ (hl i).le
  rw [point]
  refine hasFDerivAt_pi'' fun i => ?_
  have relaxed := (((common_slopes hw hs).const_mul w.a[i]).add (artificial_slopes hw hs i))
  have slopes : HasSlopes _ (fun k => hess[i][k]) v :=
    ((localSums_slopes ha nonneg hs i).sub ((HasSlopes.const a.b[i]).add relaxed)).congr_slopes fun k => by
      have sums : ∑ j : Fin n, a.slopeAt pt.x i j * (-pt.inverseCurvature a j * a.slopeAt pt.x k j) =
          -∑ j : Fin n, a.slopeAt pt.x i j * pt.inverseCurvature a j * a.slopeAt pt.x k j := by
        rw [← Finset.sum_neg_distrib]
        exact Finset.sum_congr rfl fun j _ => by ring
      rw [entries i k, sums, entry_ofFn, mul_ite, mul_zero, ← mul_assoc]
      ring
  refine (slopes.congr_values (.of_forall fun u => ?_)).congr_fderiv ?_
  · ring
  · ext u
    rw [HasSlopes.derivative_apply]
    rfl

end DualPoint

namespace Approximation

/-- The sample at the multiplier `8 / 3`, where the design `3 / 4` and `z` are free: the gradient falls by
`1 / 18` through the design and by `10` through `z`. -/
theorem sample_gradient_hasFDerivAt :
    ∃ gradient : (Fin 1 → ℝ) → Fin 1 → ℝ,
      (∀ v, ((DualPoint.ofMultipliers (sample 1) sampleWeights (.ofFn v)).gradient (sample 1) sampleWeights).serial =
        .done (.ofFn (gradient v))) ∧
      HasFDerivAt gradient (-(1 / 18 + 10 : ℝ) • ContinuousLinearMap.id ℝ (Fin 1 → ℝ)) fun _ => 8 / 3 := by
  have free := sample_unclamped 1 (l := 8 / 3) (r := 3) (by norm_num) (by norm_num)
  have smooth : DualPoint.Smooth (sample 1) sampleWeights (.singleton (8 / 3)) := by
    refine ⟨fun j => ?_, fun j => ?_, fun i => ?_, ?_⟩
    · rw [Fin.eq_zero j, free]
      show (3 / (3 + 1) : ℝ) ≠ 1 / 2
      norm_num
    · rw [Fin.eq_zero j, free]
      show (3 / (3 + 1) : ℝ) ≠ 2
      norm_num
    · rw [Fin.eq_zero i]
      show (8 / 3 : ℝ) ≠ 1000
      norm_num
    · rw [Fin.sum_univ_one]
      show (8 / 3 * 1 : ℝ) ≠ 1
      norm_num
  obtain ⟨gradient, hess, hg, hh, derivative⟩ :=
    DualPoint.gradient_hasFDerivAt (sample_wellPosed 1) sampleWeights_valid
      (fun i => by
        rw [Fin.eq_zero i]
        show (0 : ℝ) < 8 / 3
        norm_num)
      smooth
  refine ⟨gradient, hg, ?_⟩
  let pt := DualPoint.ofMultipliers (sample 1) sampleWeights (.singleton (8 / 3))
  have hx : pt.x = .singleton (3 / (3 + 1)) := sample_design 1 (by norm_num) (by norm_num) (by norm_num)
  have hz : pt.z = 10 * max (8 / 3 - 1) 0 := sample_common 1 (8 / 3)
  have slope : (sample 1).slopeAt pt.x 0 0 = 16 / 27 := by
    rw [hx]
    show (3 : ℝ) / ((3 - 3 / (3 + 1)) * (3 - 3 / (3 + 1))) - 0 / ((3 / (3 + 1) - 0) * (3 / (3 + 1) - 0)) = 16 / 27
    norm_num
  have curvature : pt.inverseCurvature (sample 1) 0 = 81 / 512 := by
    have between : pt.IsFree (sample 1) 0 := by
      unfold DualPoint.IsFree
      rw [hx]
      show (1 / 2 : ℝ) < 3 / (3 + 1) ∧ (3 / (3 + 1) : ℝ) < 2
      norm_num
    unfold DualPoint.inverseCurvature
    rw [if_pos between, show pt.lagrangian = (sample 1).lagrangian (.singleton (8 / 3)) from rfl, sample_plam,
      sample_qlam, hx]
    show (1 : ℝ) / (2.0 * (1 + 3 * (8 / 3)) / ((3 - 3 / (3 + 1)) * (3 - 3 / (3 + 1)) * (3 - 3 / (3 + 1))) +
      2.0 * 1 / ((3 / (3 + 1) - 0) * (3 / (3 + 1) - 0) * (3 / (3 + 1) - 0))) = 81 / 512
    norm_num
  have entry : hess[(0 : Fin 1)][(0 : Fin 1)] = -(1 / 18 + 10) := by
    have common : 0 < pt.z := by
      rw [hz]
      norm_num
    have held : ¬ ((0 : Fin 1) = 0 ∧ (1000 : ℝ) < 8 / 3) := by norm_num
    rw [(DualPoint.hessian_entries pt).of_serial hh 0 0, Fin.sum_univ_one, slope, curvature, if_pos common]
    show (-(16 / 27 * (81 / 512) * (16 / 27)) - (if (0 : Fin 1) = 0 ∧ (1000 : ℝ) < 8 / 3 then 1 / 1 else 0) -
      1 * 1 * (10.0 / 1) : ℝ) = _
    rw [if_neg held]
    norm_num
  have point : (fun i : Fin 1 => (Vector.singleton (8 / 3 : ℝ))[i]) = fun _ => 8 / 3 := funext fun i => by
    rw [Fin.eq_zero i]
    rfl
  rw [point] at derivative
  refine derivative.congr_fderiv (ContinuousLinearMap.ext fun u => funext fun i => ?_)
  rw [Fin.eq_zero i]
  show (hess.toMatrix.mulVec u) 0 = -(1 / 18 + 10) * u 0
  rw [← entry, Matrix.mulVec, dotProduct, Fin.sum_univ_one]
  rfl

end Approximation

end MovingAsymptotes
