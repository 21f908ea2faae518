import MovingAsymptotes.Proofs.Approximation

/-!
# Convexity of the Lagrangian

Every term of the Lagrangian is a pole at a distance that the move limits keep positive, so it lies above
its tangents there, and away from the point of contact it does so by a multiple of the square. A design
that no variable can improve to first order is therefore a minimiser of the Lagrangian within the move
limits, and the only one as soon as each variable has a coefficient that does not vanish.

* `Approximation.Stationary.value_le`: a stationary design is a minimiser.
* `Approximation.Stationary.value_lt`: it is the only one if the coefficients are positive.
* `Approximation.Stationary.unique`: minimisers for different multipliers agree unless the constraints
  see a difference between them.
-/

namespace MovingAsymptotes

variable {n m : Nat} {a : Approximation ℝ n m}

/-- A term with a pole, at the distance `v` against its tangent at the distance `u`. -/
lemma pole_eq_tangent (p : ℝ) {u v : ℝ} (hu : u ≠ 0) (hv : v ≠ 0) :
    p / v = p / u + p / (u * u) * (u - v) + p / (v * (u * u)) * (u - v) ^ 2 := by
  field_simp
  ring

namespace Approximation

/-- What variable `j` adds to the value of the Lagrangian. -/
noncomputable def lagrangianTerm (a : Approximation ℝ n m) (l : Lagrangian ℝ n) (x : Vector ℝ n)
    (j : Fin n) : ℝ :=
  l.plam[j] / a.asymptotes.above x j + l.qlam[j] / a.asymptotes.below x j

/-- A design within the move limits from which no variable can lower the Lagrangian, to first order. -/
structure Stationary (a : Approximation ℝ n m) (lambda : Vector ℝ m) (x : Vector ℝ n) : Prop where
  contains : a.limits.Contains x
  slope_nonneg : ∀ x' : Vector ℝ n, a.limits.Contains x' → ∀ j : Fin n,
    0 ≤ (a.lagrangianGradient x (a.lagrangian lambda))[j] * (x'[j] - x[j])

variable {lambda lambda' : Vector ℝ m} {x x' : Vector ℝ n}

/-- Away from a stationary design each term grows at least as a square. The factor may vanish with the
coefficients only. -/
lemma Stationary.term_grows (h : a.Stationary lambda x) (ha : a.Convex)
    (hl : ∀ i : Fin m, 0 ≤ lambda[i]) (hx' : a.limits.Contains x') (j : Fin n) :
    ∃ c, 0 ≤ c ∧ (0 < (a.lagrangian lambda).plam[j] → 0 < c) ∧
      a.lagrangianTerm (a.lagrangian lambda) x j + c * (x'[j] - x[j]) ^ 2 ≤
        a.lagrangianTerm (a.lagrangian lambda) x' j := by
  have hu := ha.above_pos h.contains j
  have hb := ha.below_pos h.contains j
  have hu' := ha.above_pos hx' j
  have hb' := ha.below_pos hx' j
  have hp := ha.plam_nonneg hl j
  have hq := ha.qlam_nonneg hl j
  have hslope := h.slope_nonneg x' hx' j
  have du := mul_pos hu' (mul_pos hu hu)
  have db := mul_pos hb' (mul_pos hb hb)
  rw [entry_lagrangianGradient] at hslope
  unfold lagrangianTerm
  rw [pole_eq_tangent (a.lagrangian lambda).plam[j] hu.ne' hu'.ne',
    pole_eq_tangent (a.lagrangian lambda).qlam[j] hb.ne' hb'.ne']
  have above : a.asymptotes.above x j - a.asymptotes.above x' j = x'[j] - x[j] := by
    unfold Asymptotes.above
    ring
  have below : a.asymptotes.below x j - a.asymptotes.below x' j = -(x'[j] - x[j]) := by
    unfold Asymptotes.below
    ring
  refine ⟨(a.lagrangian lambda).plam[j] / (a.asymptotes.above x' j *
      (a.asymptotes.above x j * a.asymptotes.above x j)) +
    (a.lagrangian lambda).qlam[j] / (a.asymptotes.below x' j *
      (a.asymptotes.below x j * a.asymptotes.below x j)), ?_, fun hpos => ?_, ?_⟩
  · exact add_nonneg (div_nonneg hp du.le) (div_nonneg hq db.le)
  · exact add_pos_of_pos_of_nonneg (div_pos hpos du) (div_nonneg hq db.le)
  · rw [above, below, neg_sq]
    linarith

lemma Stationary.term_le (h : a.Stationary lambda x) (ha : a.Convex)
    (hl : ∀ i : Fin m, 0 ≤ lambda[i]) (hx' : a.limits.Contains x') (j : Fin n) :
    a.lagrangianTerm (a.lagrangian lambda) x j ≤ a.lagrangianTerm (a.lagrangian lambda) x' j := by
  obtain ⟨c, hc, -, hle⟩ := h.term_grows ha hl hx' j
  have hsq := mul_nonneg hc (sq_nonneg (x'[j] - x[j]))
  linarith

lemma Stationary.term_lt (h : a.Stationary lambda x) (ha : a.Convex)
    (hl : ∀ i : Fin m, 0 ≤ lambda[i]) (hx' : a.limits.Contains x') {j : Fin n}
    (hp : 0 < (a.lagrangian lambda).plam[j]) (hne : x[j] ≠ x'[j]) :
    a.lagrangianTerm (a.lagrangian lambda) x j < a.lagrangianTerm (a.lagrangian lambda) x' j := by
  obtain ⟨c, -, hc, hle⟩ := h.term_grows ha hl hx' j
  have hsq : 0 < c * (x'[j] - x[j]) ^ 2 := mul_pos (hc hp) (sq_pos_of_ne_zero (sub_ne_zero.2 hne.symm))
  linarith

/-- A stationary design is a minimiser of the Lagrangian within the move limits. -/
theorem Stationary.value_le (h : a.Stationary lambda x) (ha : a.Convex)
    (hl : ∀ i : Fin m, 0 ≤ lambda[i]) (hx' : a.limits.Contains x') :
    ∑ j, a.lagrangianTerm (a.lagrangian lambda) x j ≤
      ∑ j, a.lagrangianTerm (a.lagrangian lambda) x' j :=
  Finset.sum_le_sum fun j _ => h.term_le ha hl hx' j

/-- It is the only minimiser if the coefficients are positive. -/
theorem Stationary.value_lt (h : a.Stationary lambda x) (ha : a.Convex)
    (hl : ∀ i : Fin m, 0 ≤ lambda[i]) (hp : ∀ j : Fin n, 0 < (a.lagrangian lambda).plam[j])
    (hx' : a.limits.Contains x') (hne : x ≠ x') :
    ∑ j, a.lagrangianTerm (a.lagrangian lambda) x j <
      ∑ j, a.lagrangianTerm (a.lagrangian lambda) x' j := by
  obtain ⟨k, hk⟩ : ∃ k : Fin n, x[k] ≠ x'[k] := by
    by_contra hall
    push Not at hall
    exact hne (vector_ext hall)
  exact Finset.sum_lt_sum (fun j _ => h.term_le ha hl hx' j)
    ⟨k, Finset.mem_univ k, h.term_lt ha hl hx' (hp k) hk⟩

/-- The value of the Lagrangian is that of the objective and of the constraints, weighted by the
multipliers. -/
lemma sum_lagrangianTerm (lambda : Vector ℝ m) (x : Vector ℝ n) :
    ∑ j, a.lagrangianTerm (a.lagrangian lambda) x j =
      ∑ j : Fin n, (a.p0[j] / a.asymptotes.above x j + a.q0[j] / a.asymptotes.below x j) +
        ∑ i : Fin m, lambda[i] * (a.localSums x)[i] := by
  have constraints : ∑ i : Fin m, lambda[i] * (a.localSums x)[i] =
      ∑ j : Fin n, ((∑ i : Fin m, a.p[j][i] * lambda[i]) / a.asymptotes.above x j +
        (∑ i : Fin m, a.q[j][i] * lambda[i]) / a.asymptotes.below x j) := by
    simp only [entry_localSums, Finset.mul_sum, Finset.sum_div, ← Finset.sum_add_distrib]
    rw [Finset.sum_comm]
    exact Finset.sum_congr rfl fun j _ => Finset.sum_congr rfl fun i _ => by ring
  rw [constraints, ← Finset.sum_add_distrib]
  refine Finset.sum_congr rfl fun j _ => ?_
  unfold lagrangianTerm
  rw [entry_plam, entry_qlam]
  ring

/-- Minimisers for two vectors of multipliers agree, unless each multiplier comes with a constraint that
is, on the whole, larger at the other minimiser. -/
theorem Stationary.unique (h : a.Stationary lambda x) (h' : a.Stationary lambda' x')
    (ha : a.WellPosed) (hl : ∀ i : Fin m, 0 ≤ lambda[i]) (hl' : ∀ i : Fin m, 0 ≤ lambda'[i])
    (hs : ∑ i : Fin m, (lambda[i] - lambda'[i]) * ((a.localSums x')[i] - (a.localSums x)[i]) ≤ 0) :
    x = x' := by
  by_contra hne
  have there := h.value_lt ha.convex hl (ha.plam_pos hl) h'.contains hne
  have back := h'.value_lt ha.convex hl' (ha.plam_pos hl') h.contains (Ne.symm hne)
  simp only [sum_lagrangianTerm] at there back
  simp only [sub_mul, mul_sub, Finset.sum_sub_distrib] at hs
  linarith

end Approximation

end MovingAsymptotes
