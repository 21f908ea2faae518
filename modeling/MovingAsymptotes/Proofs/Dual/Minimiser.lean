import MovingAsymptotes.Proofs.Dual.Agreement

/-!
# The dual function as a minimum

For given multipliers the Lagrangian falls apart into terms of one variable each: two poles for a design
variable, a parabola for an artificial one. The closed forms of the dual method are the minimisers of
these terms, and the only ones. In the multipliers the Lagrangian is affine, and its slope at a point is
what the constraints are worth there. So the least value, the dual function, lies below all these affine
functions and touches the one that belongs to the minimiser.

* `DualPoint.value_grows`: how far the Lagrangian lies above its value at the minimiser.
* `Approximation.lagrangianValue_affine`: the Lagrangian in the multipliers.
* `DualPoint.ofMultipliers_minimises`: the minimiser is the only one, the gradient of the dual function is
  a supergradient, and the dual function is concave.
-/

namespace MovingAsymptotes

variable {n m : Nat}

namespace Approximation

/-- A design within the move limits, and artificial variables that are not negative. -/
structure Admits (a : Approximation ℝ n m) (x : Vector ℝ n) (y : Vector ℝ m) (z : ℝ) : Prop where
  contains : a.limits.Contains x
  y_nonneg : ∀ i : Fin m, 0 ≤ y[i]
  z_nonneg : 0 ≤ z

/-- The Lagrangian for some multipliers, with the curvature that the dual method gives `z`. -/
noncomputable def lagrangianValue (a : Approximation ℝ n m) (w : Weights ℝ m) (lambda : Vector ℝ m)
    (x : Vector ℝ n) (y : Vector ℝ m) (z : ℝ) : ℝ :=
  let l := a.lagrangian lambda
  ∑ j : Fin n, (l.plam[j] / (a.asymptotes.upp[j] - x[j]) + l.qlam[j] / (x[j] - a.asymptotes.low[j])) -
    ∑ i : Fin m, lambda[i] * a.b[i] + (w.a0 - ∑ i : Fin m, lambda[i] * w.a[i]) * z + w.b0 * z ^ 2 / 20.0 +
    ∑ i : Fin m, ((w.c[i] - lambda[i]) * y[i] + w.d[i] * y[i] ^ 2 / 2.0)

/-- The values that the Lagrangian takes for some multipliers. -/
def lagrangianValues (a : Approximation ℝ n m) (w : Weights ℝ m) (lambda : Vector ℝ m) : Set ℝ :=
  {v | ∃ x y z, a.Admits x y z ∧ v = a.lagrangianValue w lambda x y z}

/-- The dual function: the least value of the Lagrangian. -/
noncomputable def dualValue (a : Approximation ℝ n m) (w : Weights ℝ m) (lambda : Vector ℝ m) : ℝ :=
  sInf (a.lagrangianValues w lambda)

variable {a : Approximation ℝ n m} {w : Weights ℝ m}

lemma lagrangianValue_eq (a : Approximation ℝ n m) (w : Weights ℝ m) (lambda : Vector ℝ m) (x : Vector ℝ n)
    (y : Vector ℝ m) (z : ℝ) : a.lagrangianValue w lambda x y z =
      ∑ j : Fin n, ((a.lagrangian lambda).plam[j] / (a.asymptotes.upp[j] - x[j]) +
        (a.lagrangian lambda).qlam[j] / (x[j] - a.asymptotes.low[j])) -
      ∑ i : Fin m, lambda[i] * a.b[i] + (w.a0 - ∑ i : Fin m, lambda[i] * w.a[i]) * z + w.b0 * z ^ 2 / 20 +
      ∑ i : Fin m, ((w.c[i] - lambda[i]) * y[i] + w.d[i] * y[i] ^ 2 / 2) := by
  have twenty : (20.0 : ℝ) = 20 := by norm_num
  have two : (2.0 : ℝ) = 2 := by norm_num
  unfold lagrangianValue
  rw [twenty, two]

/-- The Lagrangian is affine in the multipliers, with the values of the relaxed constraints as slopes. -/
theorem lagrangianValue_affine (w : Weights ℝ m) (lambda nu : Vector ℝ m) (x : Vector ℝ n) (y : Vector ℝ m)
    (z : ℝ) : a.lagrangianValue w nu x y z = a.lagrangianValue w lambda x y z +
      ∑ i : Fin m, ((a.localSums x)[i] - (a.b[i] + w.a[i] * z + y[i])) * (nu[i] - lambda[i]) := by
  have value (lambda : Vector ℝ m) : a.lagrangianValue w lambda x y z =
      ∑ j : Fin n, (a.p0[j] / a.asymptotes.above x j + a.q0[j] / a.asymptotes.below x j) + w.a0 * z +
        w.b0 * z ^ 2 / 20 + ∑ i : Fin m, (w.c[i] * y[i] + w.d[i] * y[i] ^ 2 / 2) +
        ∑ i : Fin m, ((a.localSums x)[i] - (a.b[i] + w.a[i] * z + y[i])) * lambda[i] := by
    have design := a.sum_lagrangianTerm lambda x
    unfold lagrangianTerm at design
    have constraints :
        ∑ i : Fin m, ((a.localSums x)[i] - (a.b[i] + w.a[i] * z + y[i])) * lambda[i] =
          ∑ i : Fin m, lambda[i] * (a.localSums x)[i] - ∑ i : Fin m, lambda[i] * a.b[i] -
            (∑ i : Fin m, lambda[i] * w.a[i]) * z - ∑ i : Fin m, lambda[i] * y[i] := by
      simp only [Finset.sum_mul, ← Finset.sum_sub_distrib]
      exact Finset.sum_congr rfl fun i _ => by ring
    have artificial : ∑ i : Fin m, ((w.c[i] - lambda[i]) * y[i] + w.d[i] * y[i] ^ 2 / 2) =
        ∑ i : Fin m, (w.c[i] * y[i] + w.d[i] * y[i] ^ 2 / 2) - ∑ i : Fin m, lambda[i] * y[i] := by
      rw [← Finset.sum_sub_distrib]
      exact Finset.sum_congr rfl fun i _ => by ring
    unfold Asymptotes.above Asymptotes.below at design ⊢
    rw [lagrangianValue_eq, design, constraints, artificial]
    ring
  rw [value nu, value lambda]
  simp only [mul_sub, Finset.sum_sub_distrib]
  ring

end Approximation

namespace DualPoint

variable {a : Approximation ℝ n m} {w : Weights ℝ m} {lambda : Vector ℝ m}

/-- Over the numbers that are not negative, a parabola grows at least as a square from its vertex, or from
zero if the vertex lies below. -/
lemma parabola_grows {c d l y v : ℝ} (hd : 0 < d) (hy : y = positivePart ((l - c) / d)) (hv : 0 ≤ v) :
    (c - l) * y + d * y ^ 2 / 2 + d / 2 * (v - y) ^ 2 ≤ (c - l) * v + d * v ^ 2 / 2 := by
  obtain ⟨stationary, complementary⟩ := DualState.artificial_rows hd hy
  have rise := mul_nonneg (positivePart_nonneg (c + d * y - l)) hv
  have linear : c - l = positivePart (c + d * y - l) - d * y := by linarith
  rw [linear]
  linarith

/-- The shared artificial variable is the vertex of its parabola, or zero. -/
lemma common_eq (a : Approximation ℝ n m) (w : Weights ℝ m) (lambda : Vector ℝ m) :
    (ofMultipliers a w lambda).z =
      positivePart ((∑ i : Fin m, lambda[i] * w.a[i] - w.a0) / (w.b0 / zScale)) := by
  have ten : (0 : ℝ) ≤ zScale := zScale_pos.le
  show zScale * positivePart ((dot lambda w.a - w.a0) / w.b0) = _
  rw [dot_eq_sum, positivePart_eq, positivePart_eq, mul_max_of_nonneg _ _ ten, mul_zero, div_div_eq_mul_div,
    mul_comm (zScale : ℝ), div_mul_eq_mul_div]

lemma ofMultipliers_admits (ha : a.WellPosed) (w : Weights ℝ m) (lambda : Vector ℝ m) :
    a.Admits (ofMultipliers a w lambda).x (ofMultipliers a w lambda).y (ofMultipliers a w lambda).z where
  contains := ofMultipliers_contains ha
  y_nonneg i := by
    have hy : (ofMultipliers a w lambda).y[i] = positivePart ((lambda[i] - w.c[i]) / w.d[i]) := entry_ofFn _ i
    rw [hy]
    exact positivePart_nonneg _
  z_nonneg := by
    rw [common_eq]
    exact positivePart_nonneg _

variable {x : Vector ℝ n} {y : Vector ℝ m} {z : ℝ}

/-- The Lagrangian lies above its value at the minimiser by what its poles and its parabolas grow. -/
theorem value_grows (lambda : Vector ℝ m) (hw : w.Valid) (h : a.Admits x y z) :
    let pt := ofMultipliers a w lambda
    a.lagrangianValue w lambda pt.x pt.y pt.z +
        (∑ j, a.lagrangianTerm (a.lagrangian lambda) x j - ∑ j, a.lagrangianTerm (a.lagrangian lambda) pt.x j) +
        w.b0 / 20 * (z - pt.z) ^ 2 + ∑ i : Fin m, w.d[i] / 2 * (y[i] - pt.y[i]) ^ 2 ≤
      a.lagrangianValue w lambda x y z := by
  intro pt
  have artificial : ∑ i : Fin m, ((w.c[i] - lambda[i]) * pt.y[i] + w.d[i] * pt.y[i] ^ 2 / 2) +
      ∑ i : Fin m, w.d[i] / 2 * (y[i] - pt.y[i]) ^ 2 ≤
        ∑ i : Fin m, ((w.c[i] - lambda[i]) * y[i] + w.d[i] * y[i] ^ 2 / 2) := by
    rw [← Finset.sum_add_distrib]
    exact Finset.sum_le_sum fun i _ => parabola_grows (hw.d_pos i) (entry_ofFn _ i) (h.y_nonneg i)
  have scale : w.b0 / zScale = w.b0 / 10 := by
    unfold zScale
    norm_num
  have common := parabola_grows (c := w.a0) (v := z) (div_pos hw.b0_pos (show (0 : ℝ) < 10 by norm_num))
    (scale ▸ common_eq a w lambda) h.z_nonneg
  simp only [Approximation.lagrangianValue_eq]
  unfold Approximation.lagrangianTerm Asymptotes.above Asymptotes.below
  linarith

/-- The minimiser of the Lagrangian is the only one. -/
theorem value_lt (ha : a.WellPosed) (hw : w.Valid) (hl : ∀ i : Fin m, 0 ≤ lambda[i]) (h : a.Admits x y z)
    (hne : (x, y, z) ≠
      ((ofMultipliers a w lambda).x, (ofMultipliers a w lambda).y, (ofMultipliers a w lambda).z)) :
    a.lagrangianValue w lambda (ofMultipliers a w lambda).x (ofMultipliers a w lambda).y
        (ofMultipliers a w lambda).z < a.lagrangianValue w lambda x y z := by
  let pt := ofMultipliers a w lambda
  have stationary : a.Stationary lambda pt.x := DualPoint.stationary ha hl
  have grows := value_grows lambda hw h
  have design := stationary.value_le ha.convex hl h.contains
  have common : 0 ≤ w.b0 / 20 * (z - pt.z) ^ 2 := mul_nonneg (div_pos hw.b0_pos (by norm_num)).le (sq_nonneg _)
  have squares (i : Fin m) : 0 ≤ w.d[i] / 2 * (y[i] - pt.y[i]) ^ 2 :=
    mul_nonneg (half_pos (hw.d_pos i)).le (sq_nonneg _)
  have artificial := Finset.sum_nonneg fun i (_ : i ∈ Finset.univ) => squares i
  -- Of three differences that are not negative, one is positive.
  by_cases hx : pt.x = x
  · by_cases hz : z = pt.z
    · have hy : ∃ i : Fin m, y[i] ≠ pt.y[i] := by
        by_contra hall
        push Not at hall
        exact hne (by rw [← vector_ext hall, ← hz, ← hx])
      obtain ⟨i, hi⟩ := hy
      have above : 0 < ∑ i : Fin m, w.d[i] / 2 * (y[i] - pt.y[i]) ^ 2 :=
        Finset.sum_pos' (fun i _ => squares i)
          ⟨i, Finset.mem_univ i, mul_pos (half_pos (hw.d_pos i)) (sq_pos_of_ne_zero (sub_ne_zero.2 hi))⟩
      linarith
    · have above : 0 < w.b0 / 20 * (z - pt.z) ^ 2 :=
        mul_pos (div_pos hw.b0_pos (by norm_num)) (sq_pos_of_ne_zero (sub_ne_zero.2 hz))
      linarith
  · have above := stationary.value_lt ha.convex hl (ha.plam_pos hl) h.contains hx
    linarith

/-- The least value of the Lagrangian is the one at the minimiser. -/
lemma value_isLeast (ha : a.WellPosed) (hw : w.Valid) (hl : ∀ i : Fin m, 0 ≤ lambda[i]) :
    IsLeast (a.lagrangianValues w lambda) (a.lagrangianValue w lambda (ofMultipliers a w lambda).x
      (ofMultipliers a w lambda).y (ofMultipliers a w lambda).z) := by
  refine ⟨⟨_, _, _, ofMultipliers_admits ha w lambda, rfl⟩, ?_⟩
  rintro _ ⟨x, y, z, h, rfl⟩
  by_cases hne : (x, y, z) =
      ((ofMultipliers a w lambda).x, (ofMultipliers a w lambda).y, (ofMultipliers a w lambda).z)
  · cases hne
    exact le_refl _
  · exact (value_lt ha hw hl h hne).le

lemma dualValue_eq (ha : a.WellPosed) (hw : w.Valid) (hl : ∀ i : Fin m, 0 ≤ lambda[i]) :
    a.dualValue w lambda = a.lagrangianValue w lambda (ofMultipliers a w lambda).x
      (ofMultipliers a w lambda).y (ofMultipliers a w lambda).z :=
  (value_isLeast ha hw hl).csInf_eq

/-- The dual function lies below the affine function that touches it, with the values of the relaxed
constraints at the minimiser as slopes. -/
lemma dualValue_le (ha : a.WellPosed) (hw : w.Valid) {nu : Vector ℝ m} (hl : ∀ i : Fin m, 0 ≤ lambda[i])
    (hn : ∀ i : Fin m, 0 ≤ nu[i]) {gradient : Vector ℝ m}
    (hg : ((ofMultipliers a w lambda).gradient a w).serial = .done gradient) :
    a.dualValue w nu ≤ a.dualValue w lambda + ∑ i : Fin m, gradient[i] * (nu[i] - lambda[i]) := by
  have slopes := (gradient_returns (ofMultipliers a w lambda)).of_serial hg
  have least := (value_isLeast ha hw hn).2 ⟨_, _, _, ofMultipliers_admits ha w lambda, rfl⟩
  rw [dualValue_eq ha hw hn, dualValue_eq ha hw hl]
  simp only [slopes]
  rw [← Approximation.lagrangianValue_affine]
  exact least

/-- A function with a supergradient everywhere is concave. -/
lemma dualValue_concaveOn (ha : a.WellPosed) (hw : w.Valid) :
    ConcaveOn ℝ (Set.Ici (0 : Fin m → ℝ)) fun v => a.dualValue w (Vector.ofFn v) := by
  refine ⟨convex_Ici 0, fun u hu v hv s t hs ht hst => ?_⟩
  have nonneg {v : Fin m → ℝ} (hv : v ∈ Set.Ici (0 : Fin m → ℝ)) (i : Fin m) : 0 ≤ (Vector.ofFn v)[i] := by
    rw [entry_ofFn]
    exact hv i
  have between : s • u + t • v ∈ Set.Ici (0 : Fin m → ℝ) := convex_Ici 0 hu hv hs ht hst
  obtain ⟨gradient, hg, -⟩ := gradient_returns (ofMultipliers a w (Vector.ofFn (s • u + t • v)))
  have below {v : Fin m → ℝ} (hv : v ∈ Set.Ici (0 : Fin m → ℝ)) :=
    dualValue_le ha hw (nonneg between) (nonneg hv) hg
  -- The slopes of the supergradient cancel between the two ends.
  have cancel : s * ∑ i : Fin m, gradient[i] * ((Vector.ofFn u)[i] - (Vector.ofFn (s • u + t • v))[i]) +
      t * ∑ i : Fin m, gradient[i] * ((Vector.ofFn v)[i] - (Vector.ofFn (s • u + t • v))[i]) = 0 := by
    rw [Finset.mul_sum, Finset.mul_sum, ← Finset.sum_add_distrib]
    refine Finset.sum_eq_zero fun i _ => ?_
    simp only [entry_ofFn, Pi.add_apply, Pi.smul_apply, smul_eq_mul]
    have ht : t = 1 - s := by linarith
    rw [ht]
    ring
  have left := mul_le_mul_of_nonneg_left (below hu) hs
  have right := mul_le_mul_of_nonneg_left (below hv) ht
  have whole : s * a.dualValue w (Vector.ofFn (s • u + t • v)) +
      t * a.dualValue w (Vector.ofFn (s • u + t • v)) = a.dualValue w (Vector.ofFn (s • u + t • v)) := by
    rw [← add_mul, hst, one_mul]
  simp only [smul_eq_mul]
  linarith

/-- For multipliers that are not negative, the closed forms are the only minimiser of the Lagrangian, the
least value is attained there, and the gradient of the dual function is a supergradient. So the dual
function is concave. -/
theorem ofMultipliers_minimises (ha : a.WellPosed) (hw : w.Valid) :
    (∀ lambda : Vector ℝ m, (∀ i : Fin m, 0 ≤ lambda[i]) →
      let pt := ofMultipliers a w lambda
      a.Admits pt.x pt.y pt.z ∧
        (∀ x y z, a.Admits x y z → (x, y, z) ≠ (pt.x, pt.y, pt.z) →
          a.lagrangianValue w lambda pt.x pt.y pt.z < a.lagrangianValue w lambda x y z) ∧
        a.dualValue w lambda = a.lagrangianValue w lambda pt.x pt.y pt.z ∧
        ∃ gradient, (pt.gradient a w).serial = .done gradient ∧
          ∀ nu : Vector ℝ m, (∀ i : Fin m, 0 ≤ nu[i]) →
            a.dualValue w nu ≤ a.dualValue w lambda + ∑ i : Fin m, gradient[i] * (nu[i] - lambda[i])) ∧
      ConcaveOn ℝ (Set.Ici (0 : Fin m → ℝ)) fun v => a.dualValue w (Vector.ofFn v) := by
  refine ⟨fun lambda hl => ?_, dualValue_concaveOn ha hw⟩
  obtain ⟨gradient, hg, -⟩ := gradient_returns (a := a) (w := w) (ofMultipliers a w lambda)
  exact ⟨ofMultipliers_admits ha w lambda, fun x y z h hne => value_lt ha hw hl h hne, dualValue_eq ha hw hl,
    gradient, hg, fun nu hn => dualValue_le ha hw hl hn hg⟩

end DualPoint

namespace Approximation

/-- The sample with `b = 3 / 2` and the multiplier `1`: the design `1` alone minimises the Lagrangian, the
constraint holds with equality there, and so the dual function is largest. -/
theorem sample_dual_maximum :
    let a := sample (3 / 2)
    (∀ x y z, a.Admits x y z → (x, y, z) ≠ (.singleton 1, .singleton 0, 0) →
        a.lagrangianValue sampleWeights (.singleton 1) (.singleton 1) (.singleton 0) 0 <
          a.lagrangianValue sampleWeights (.singleton 1) x y z) ∧
      ∀ nu : Vector ℝ 1, (∀ i : Fin 1, 0 ≤ nu[i]) →
        a.dualValue sampleWeights nu ≤ a.dualValue sampleWeights (.singleton 1) := by
  intro a
  let pt := DualPoint.ofMultipliers a sampleWeights (.singleton 1)
  have hx : pt.x = .singleton 1 := by
    rw [sample_design (3 / 2) (l := 1) (r := 2) (by norm_num) (by norm_num) (by norm_num)]
    norm_num
  have hy : pt.y = .singleton 0 := by
    refine vector_ext fun i => ?_
    have entry : pt.y[i] = positivePart ((1 - 1000) / 1) := by
      rw [Fin.eq_zero i]
      exact entry_ofFn _ _
    rw [entry, Fin.eq_zero i, positivePart_eq]
    show max ((1 - 1000) / 1) 0 = (0 : ℝ)
    norm_num
  have hz : pt.z = 0 := by
    rw [sample_common]
    norm_num
  obtain ⟨-, unique, -, gradient, hg, below⟩ :=
    (DualPoint.ofMultipliers_minimises (sample_wellPosed (3 / 2)) sampleWeights_valid).1 (.singleton 1) fun i => by
      rw [Fin.eq_zero i]
      exact zero_le_one
  simp only [show DualPoint.ofMultipliers (sample (3 / 2)) sampleWeights (.singleton 1) = pt from rfl, hx, hy,
    hz] at unique
  refine ⟨unique, fun nu hn => ?_⟩
  have slope : gradient[(0 : Fin 1)] = 0 := by
    rw [sample_gradient (by norm_num) hx hz hg]
    norm_num
  have bound := below nu hn
  rw [Fin.sum_univ_one, slope, zero_mul, add_zero] at bound
  exact bound

end Approximation

end MovingAsymptotes
