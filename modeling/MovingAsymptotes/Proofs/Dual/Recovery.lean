import MovingAsymptotes.Proofs.Dual.Newton
import MovingAsymptotes.Proofs.Kkt.Residual

/-!
# Recovered multipliers

The dual method finds the multipliers of the constraints only. The other multipliers and the slacks are
recovered from stationarity, and with them most optimality conditions hold exactly: a variable that the
Lagrangian pushes against a move limit rests at that limit, and an artificial variable and its
multiplier are never positive together. What is left is how far the gradient of the dual function is
from zero.

* `DualPoint.unclamped_lt_iff`: on which side of a design the Lagrangian is flat.
* `DualPoint.held`: where the Lagrangian has a slope, a move limit holds the variable.
* `DualState.toPoint_certified`: the rows of the residual at the recovered point.
-/

namespace MovingAsymptotes

variable {n m : Nat} {a : Approximation ℝ n m} {w : Weights ℝ m}

section Minimiser

/-- The sign of a slope between two poles, by the square roots of the coefficients. -/
lemma slope_pos_iff {p q u l : ℝ} (hp : 0 < p) (hq : 0 < q) (hu : 0 < u) (hl : 0 < l) :
    0 < p / (u * u) - q / (l * l) ↔ √q * u < √p * l := by
  have hs : q / (l * l) < p / (u * u) ↔ (√q * u) ^ 2 < (√p * l) ^ 2 := by
    rw [div_lt_div_iff₀ (mul_pos hl hl) (mul_pos hu hu), mul_pow, mul_pow, Real.sq_sqrt hq.le,
      Real.sq_sqrt hp.le, sq, sq]
  rw [sub_pos, hs]
  exact pow_lt_pow_iff_left₀ (mul_nonneg (Real.sqrt_nonneg q) hu.le)
    (mul_nonneg (Real.sqrt_nonneg p) hl.le) two_ne_zero

lemma slope_neg_iff {p q u l : ℝ} (hp : 0 < p) (hq : 0 < q) (hu : 0 < u) (hl : 0 < l) :
    p / (u * u) - q / (l * l) < 0 ↔ √p * l < √q * u := by
  rw [← neg_pos, neg_sub]
  exact slope_pos_iff hq hp hl hu

/-- A value beyond which a clamp reaches is held by an end of the interval. -/
lemma clamp_held {lo hi v : ℝ} (h : lo < hi) :
    (v < clamp lo hi v → clamp lo hi v = lo) ∧ (clamp lo hi v < v → clamp lo hi v = hi) := by
  rw [clamp_eq]
  constructor
  · intro hv
    refine max_eq_right (le_of_not_gt fun hlt => ?_)
    rw [max_eq_left hlt.le] at hv
    exact (min_le_left v hi).not_gt hv
  · intro hv
    have hlt : min v hi < v := (le_max_left _ lo).trans_lt hv
    have hmin : min v hi = hi := min_eq_right (le_of_not_ge fun hle => hlt.ne (min_eq_left hle))
    rw [hmin, max_eq_left h.le]

/-- Against a design between the asymptotes, the point at which the Lagrangian is flat lies below where the
Lagrangian rises, and above where it falls. -/
lemma DualPoint.unclamped_lt_iff {l : Lagrangian ℝ n} {x : Vector ℝ n} {j : Fin n} (hp : 0 < l.plam[j])
    (hq : 0 < l.qlam[j]) (hu : 0 < a.asymptotes.above x j) (hb : 0 < a.asymptotes.below x j) :
    (unclamped a l j < x[j] ↔ 0 < (a.lagrangianGradient x l)[j]) ∧
      (x[j] < unclamped a l j ↔ (a.lagrangianGradient x l)[j] < 0) := by
  have roots := add_pos (Real.sqrt_pos.2 hp) (Real.sqrt_pos.2 hq)
  have balance : √l.plam[j] * a.asymptotes.below x j - √l.qlam[j] * a.asymptotes.above x j =
      x[j] * (√l.plam[j] + √l.qlam[j]) - (√l.plam[j] * a.asymptotes.low[j] + √l.qlam[j] * a.asymptotes.upp[j]) := by
    unfold Asymptotes.above Asymptotes.below
    ring
  have flat : unclamped a l j =
      (√l.plam[j] * a.asymptotes.low[j] + √l.qlam[j] * a.asymptotes.upp[j]) / (√l.plam[j] + √l.qlam[j]) := rfl
  rw [Approximation.entry_lagrangianGradient, slope_pos_iff hp hq hu hb, slope_neg_iff hp hq hu hb, flat,
    div_lt_iff₀ roots, lt_div_iff₀ roots]
  constructor
  · rw [← sub_pos, ← balance, sub_pos]
  · rw [← sub_neg, ← balance, sub_neg]

/-- Where the Lagrangian rises at its minimiser, the lower move limit holds the variable, and where it
falls, the upper one. -/
theorem DualPoint.held {lambda : Vector ℝ m} (ha : a.WellPosed) (hl : ∀ i : Fin m, 0 ≤ lambda[i])
    (j : Fin n) :
    (0 < (a.lagrangianGradient (ofMultipliers a w lambda).x (a.lagrangian lambda))[j] →
        (ofMultipliers a w lambda).x[j] = a.limits.alfa[j]) ∧
      ((a.lagrangianGradient (ofMultipliers a w lambda).x (a.lagrangian lambda))[j] < 0 →
        (ofMultipliers a w lambda).x[j] = a.limits.beta[j]) := by
  have hx : a.limits.Contains (ofMultipliers a w lambda).x := ofMultipliers_contains ha
  have hc : (ofMultipliers a w lambda).x[j] = clamp a.limits.alfa[j] a.limits.beta[j]
      (unclamped a (a.lagrangian lambda) j) := entry_ofFn _ j
  obtain ⟨lower, upper⟩ := clamp_held (v := unclamped a (a.lagrangian lambda) j) (ha.alfa_lt_beta j)
  rw [← hc] at lower upper
  obtain ⟨below, above⟩ := unclamped_lt_iff (ha.plam_pos hl j) (ha.qlam_pos hl j) (ha.above_pos hx j)
    (ha.below_pos hx j)
  exact ⟨fun hg => lower (below.2 hg), fun hg => upper (above.2 hg)⟩

end Minimiser

namespace DualState

variable {s : DualState ℝ n m}

/-- Where the Lagrangian rises at the minimiser, the lower move limit holds the variable, and where it
falls, the upper one. -/
theorem stationary_or_held (ha : a.WellPosed) (hs : s.Interior a w) (j : Fin n) :
    (0 < (a.lagrangianGradient s.point.x s.point.lagrangian)[j] → s.point.x[j] = a.limits.alfa[j]) ∧
      ((a.lagrangianGradient s.point.x s.point.lagrangian)[j] < 0 → s.point.x[j] = a.limits.beta[j]) := by
  rw [hs.point]
  exact DualPoint.held ha (fun i => (hs.lambda_pos i).le) j

/-- How a point found through the dual fails the optimality conditions at most, if the solve stopped at
the barrier parameter `e`: by the given violations of the constraints and of the complementarity of the
slacks, and by the excess of the multipliers over the weight of `z`. All other rows vanish. -/
structure Certified (a : Approximation ℝ n m) (w : Weights ℝ m) (e : ℝ) (pt : KktPoint ℝ n m)
    (feasible slack : Vector ℝ m) : Prop where
  /-- Stationarity in `x` and the complementarity of the move limits. -/
  own : ∀ r ∈ a.localRows pt 0, r = 0
  /-- Stationarity in `y` and `z`, the constraints, and the complementarity of `y`, `z` and the slacks. -/
  shared : sharedRows w pt.y pt.mu pt.lambda pt.s pt.z pt.zet (a.violations w pt (a.localSums pt.x)) 0 =
    List.replicate m 0 ++ [-max (dot w.a pt.lambda - w.a0) 0] ++ feasible.toList ++
      List.replicate m 0 ++ [0] ++ slack.toList
  feasible_le : ∀ i : Fin m, 0 ≤ feasible[i] ∧ feasible[i] ≤ 0.9 * e
  slack_le : ∀ i : Fin m, 0 ≤ slack[i] ∧ slack[i] ≤ (1.9 + 0.9 * pt.lambda[i]) * e

section Recovered

/-- A product vanishes if the other factor does wherever the first is positive. -/
lemma positivePart_mul_sub {u v c : ℝ} (h : 0 < u → v = c) : positivePart u * (v - c) = 0 := by
  rw [positivePart_eq]
  rcases lt_or_ge 0 u with hu | hu
  · rw [h hu, sub_self, mul_zero]
  · rw [max_eq_right hu, zero_mul]

lemma localRows_toPoint (ha : a.WellPosed) (hs : s.Interior a w) :
    ∀ r ∈ a.localRows (s.toPoint a w) 0, r = 0 := by
  have hlag : s.point.lagrangian = a.lagrangian s.lambda := by
    rw [hs.point]
    rfl
  unfold Approximation.localRows toPoint
  simp only [forall_mem_flatMap_finRange, List.forall_mem_cons, List.not_mem_nil, IsEmpty.forall_iff,
    implies_true, and_true, entry_map, ← hlag, sub_zero]
  intro j
  obtain ⟨lower, upper⟩ := stationary_or_held ha hs j
  refine ⟨?_, positivePart_mul_sub lower, ?_⟩
  · have := positivePart_sub_negativePart (a.lagrangianGradient s.point.x s.point.lagrangian)[j]
    linarith
  · exact positivePart_mul_sub fun hg => (upper (neg_pos.1 hg)).symm

/-- An artificial variable is stationary, and its multiplier is zero unless it is. -/
lemma artificial_rows {c d l y : ℝ} (hd : 0 < d) (hy : y = positivePart ((l - c) / d)) :
    c + d * y - positivePart (c + d * y - l) - l = 0 ∧ positivePart (c + d * y - l) * y = 0 := by
  rw [positivePart_eq] at hy
  rw [positivePart_eq]
  rcases le_total c l with h | h
  · rw [max_eq_left (div_nonneg (sub_nonneg.2 h) hd.le)] at hy
    have hz : c + d * y - l = 0 := by
      rw [hy, mul_div_cancel₀ _ hd.ne']
      ring
    rw [hz, max_self, zero_mul]
    exact ⟨by linarith, rfl⟩
  · rw [max_eq_right (div_nonpos_of_nonpos_of_nonneg (sub_nonpos.2 h) hd.le)] at hy
    rw [hy, mul_zero, add_zero, max_eq_left (sub_nonneg.2 h)]
    exact ⟨by ring, mul_zero _⟩

/-- The shared artificial variable: its row keeps the excess of the multipliers over its weight. -/
lemma common_rows (a0 t : ℝ) {b0 : ℝ} (hb : 0 < b0) :
    a0 - positivePart (a0 - t) - t = -max (t - a0) 0 ∧
      positivePart (a0 - t) * (zScale * positivePart ((t - a0) / b0)) = 0 := by
  simp only [positivePart_eq]
  rcases le_total a0 t with h | h
  · rw [max_eq_right (sub_nonpos.2 h), max_eq_left (sub_nonneg.2 h), zero_mul]
    exact ⟨by ring, rfl⟩
  · rw [max_eq_left (sub_nonneg.2 h), max_eq_right (sub_nonpos.2 h),
      max_eq_right (div_nonpos_of_nonpos_of_nonneg (sub_nonpos.2 h) hb.le), mul_zero, mul_zero]
    exact ⟨by ring, rfl⟩

lemma map_finRange_eq_replicate {f : Fin m → ℝ} (h : ∀ i, f i = 0) :
    (List.finRange m).map f = List.replicate m 0 := by
  rw [List.eq_replicate_iff]
  exact ⟨by simp, forall_mem_map_finRange.2 h⟩

/-- The violations at the recovered point: what is left of the gradient above zero. -/
lemma violations_toPoint (hs : s.Interior a w) (i : Fin m) :
    (a.violations w (s.toPoint a w) (a.localSums (s.toPoint a w).x))[i] = max s.gradient[i] 0 := by
  have hg := hs.gradient i
  have hp := positivePart_sub_negativePart s.gradient[i]
  unfold Approximation.violations toPoint
  rw [entry_ofFn, ← positivePart_eq]
  simp only [entry_map]
  linarith

lemma sharedRows_toPoint (hw : w.Valid) (hs : s.Interior a w) (violations : Vector ℝ m) :
    let pt := s.toPoint a w
    sharedRows w pt.y pt.mu pt.lambda pt.s pt.z pt.zet violations 0 =
      List.replicate m 0 ++ [-max (dot w.a pt.lambda - w.a0) 0] ++ violations.toList ++
        List.replicate m 0 ++ [0] ++ (Vector.ofFn fun i : Fin m => pt.lambda[i] * pt.s[i]).toList := by
  intro pt
  have hy : ∀ i : Fin m, pt.y[i] = positivePart ((pt.lambda[i] - w.c[i]) / w.d[i]) := by
    intro i
    change s.point.y[i] = _
    rw [hs.point]
    exact entry_ofFn _ i
  have hmu : ∀ i : Fin m, pt.mu[i] = positivePart (w.c[i] + w.d[i] * pt.y[i] - pt.lambda[i]) :=
    fun i => entry_ofFn _ i
  have hz : pt.z = zScale * positivePart ((dot w.a pt.lambda - w.a0) / w.b0) := by
    change s.point.z = _
    rw [hs.point, dot_eq_sum, Finset.sum_congr rfl fun i _ => mul_comm _ _, ← dot_eq_sum]
    rfl
  have hzet : pt.zet = positivePart (w.a0 - dot w.a pt.lambda) := rfl
  have artificial := fun i : Fin m => artificial_rows (hw.d_pos i) (hy i)
  have common := common_rows w.a0 (dot w.a pt.lambda) hw.b0_pos
  unfold sharedRows
  rw [map_finRange_eq_replicate fun i => by rw [hmu]; exact (artificial i).1,
    map_finRange_eq_replicate fun i => by rw [hmu, sub_zero]; exact (artificial i).2,
    hzet, hz, sub_zero, common.1, common.2, toList_eq_map (Vector.ofFn _)]
  simp only [entry_ofFn, sub_zero]

/-- How the recovered point fails the optimality conditions at most, once no row of the dual conditions
exceeds nine tenths of the barrier parameter. -/
theorem toPoint_certified (ha : a.WellPosed) (hw : w.Valid) (hs : s.Interior a w) {e : ℝ}
    (hr : ¬ (s.residual e).Exceeds e) :
    ∃ feasible slack, Certified a w e (s.toPoint a w) feasible slack := by
  obtain ⟨hn, hrows⟩ := Tally.max_ofRows_le_iff.1 (not_lt.1 hr)
  unfold rows at hrows
  simp only [forall_mem_flatMap_finRange, List.forall_mem_cons, List.not_mem_nil, IsEmpty.forall_iff,
    implies_true, and_true, abs_le] at hrows
  refine ⟨_, _, localRows_toPoint ha hs, sharedRows_toPoint hw hs _, fun i => ?_, fun i => ?_⟩
  · obtain ⟨⟨-, hg⟩, -⟩ := hrows i
    rw [violations_toPoint hs]
    exact ⟨le_max_right _ _, max_le (by linarith [hs.eta_pos i]) hn⟩
  · obtain ⟨⟨hg, -⟩, -, he⟩ := hrows i
    have hl := hs.lambda_pos i
    have hslack : (s.toPoint a w).s[i] = max (-s.gradient[i]) 0 := by
      rw [← negativePart_eq]
      exact entry_map _ _ i
    rw [entry_ofFn, hslack]
    change 0 ≤ s.lambda[i] * _ ∧ s.lambda[i] * _ ≤ (1.9 + 0.9 * s.lambda[i]) * e
    refine ⟨mul_nonneg hl.le (le_max_right _ _), ?_⟩
    rw [mul_max_of_nonneg _ _ hl.le, mul_zero]
    have hb := mul_nonneg hl.le hn
    refine max_le ?_ (by linarith)
    have hm := mul_le_mul_of_nonneg_left (show -s.gradient[i] ≤ s.eta[i] + 0.9 * e by linarith) hl.le
    linarith

end Recovered

end DualState

end MovingAsymptotes
