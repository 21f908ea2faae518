import Mathlib
import MovingAsymptotes.Approximation
import MovingAsymptotes.Proofs.Asymptotes
import MovingAsymptotes.Proofs.Reduction.Serial

/-!
# The approximation over the reals

The approximation of a problem around a design is well posed: its coefficients are positive, and the box
in which it is used lies strictly between the asymptotes. At the design it agrees with the problem to
first order: the values of the constraints are those given, and the gradient of the Lagrangian is that
of the problem.

* `Approximation.Convex`, `Approximation.WellPosed`: the signs of the coefficients and the order of the box.
* `Approximation.around_raised`, `Approximation.around_wellPosed`: the approximation around a design is well posed.
* `Approximation.lagrangianGradient_around`: its gradient at the design is the gradient given.
-/

namespace MovingAsymptotes

variable {n m : Nat}

section Shares

variable {raa0 gap slope : ℝ}

/-- The regularisation raises both shares alike, so the slope is their difference. -/
lemma slopeShares_sub : (slopeShares raa0 gap slope).1 - (slopeShares raa0 gap slope).2 = slope := by
  have h := positivePart_sub_negativePart slope
  unfold slopeShares
  simp only
  linarith

lemma slopeShares_pos (hr : 0 < raa0) (hg : 0 < gap) :
    0 < (slopeShares raa0 gap slope).1 ∧ 0 < (slopeShares raa0 gap slope).2 := by
  have hp : 0 ≤ positivePart slope := by simp
  have hn : 0 ≤ negativePart slope := by simp
  have hf : 0 < 0.5 * raa0 / gap := by positivity
  unfold slopeShares
  simp only
  constructor <;> norm_num <;> positivity

end Shares

namespace Approximation

/-- Coefficients that are not negative, and a box strictly between the asymptotes. Within the box every
term is convex. -/
structure Convex (a : Approximation ℝ n m) : Prop where
  p0_nonneg : ∀ j : Fin n, 0 ≤ a.p0[j]
  q0_nonneg : ∀ j : Fin n, 0 ≤ a.q0[j]
  p_nonneg : ∀ (j : Fin n) (i : Fin m), 0 ≤ a.p[j][i]
  q_nonneg : ∀ (j : Fin n) (i : Fin m), 0 ≤ a.q[j][i]
  low_lt_alfa : ∀ j : Fin n, a.asymptotes.low[j] < a.limits.alfa[j]
  alfa_lt_beta : ∀ j : Fin n, a.limits.alfa[j] < a.limits.beta[j]
  beta_lt_upp : ∀ j : Fin n, a.limits.beta[j] < a.asymptotes.upp[j]

/-- Coefficients with the right signs, and a box strictly between the asymptotes. -/
structure WellPosed (a : Approximation ℝ n m) : Prop where
  p0_pos : ∀ j : Fin n, 0 < a.p0[j]
  q0_pos : ∀ j : Fin n, 0 < a.q0[j]
  p_nonneg : ∀ (j : Fin n) (i : Fin m), 0 ≤ a.p[j][i]
  q_nonneg : ∀ (j : Fin n) (i : Fin m), 0 ≤ a.q[j][i]
  low_lt_alfa : ∀ j : Fin n, a.asymptotes.low[j] < a.limits.alfa[j]
  alfa_lt_beta : ∀ j : Fin n, a.limits.alfa[j] < a.limits.beta[j]
  beta_lt_upp : ∀ j : Fin n, a.limits.beta[j] < a.asymptotes.upp[j]

/-- Coefficients that are all positive. -/
structure Raised (a : Approximation ℝ n m) : Prop where
  p0_pos : ∀ j : Fin n, 0 < a.p0[j]
  q0_pos : ∀ j : Fin n, 0 < a.q0[j]
  p_pos : ∀ (j : Fin n) (i : Fin m), 0 < a.p[j][i]
  q_pos : ∀ (j : Fin n) (i : Fin m), 0 < a.q[j][i]

lemma WellPosed.convex {a : Approximation ℝ n m} (h : a.WellPosed) : a.Convex where
  p0_nonneg j := (h.p0_pos j).le
  q0_nonneg j := (h.q0_pos j).le
  p_nonneg := h.p_nonneg
  q_nonneg := h.q_nonneg
  low_lt_alfa := h.low_lt_alfa
  alfa_lt_beta := h.alfa_lt_beta
  beta_lt_upp := h.beta_lt_upp

section Box

variable {a : Approximation ℝ n m} {x : Vector ℝ n}

lemma Convex.above_pos (h : a.Convex) (hx : a.limits.Contains x) (j : Fin n) :
    0 < a.asymptotes.above x j :=
  sub_pos.2 ((hx j).2.trans_lt (h.beta_lt_upp j))

lemma Convex.below_pos (h : a.Convex) (hx : a.limits.Contains x) (j : Fin n) :
    0 < a.asymptotes.below x j :=
  sub_pos.2 ((h.low_lt_alfa j).trans_le (hx j).1)

lemma WellPosed.above_pos (h : a.WellPosed) (hx : a.limits.Contains x) (j : Fin n) :
    0 < a.asymptotes.above x j :=
  h.convex.above_pos hx j

lemma WellPosed.below_pos (h : a.WellPosed) (hx : a.limits.Contains x) (j : Fin n) :
    0 < a.asymptotes.below x j :=
  h.convex.below_pos hx j

end Box

/-- The distance of the asymptotes that the regularisation reckons with does not vanish. -/
lemma gap_pos (asy : Asymptotes ℝ n) (j : Fin n) :
    0 < larger (asy.upp[j] - asy.low[j]) minAsymptoteGap := by
  have h : (0 : ℝ) < minAsymptoteGap := by
    unfold minAsymptoteGap
    norm_num
  rw [larger_eq_max]
  exact lt_max_of_lt_right h

section Coefficients

variable {asy : Asymptotes ℝ n} {x : Vector ℝ n} {s : Settings ℝ} {j : Fin n} {slope : ℝ}

lemma upperCoefficient_pos (hx : asy.Encloses x) (hr : 0 < s.raa0) :
    0 < upperCoefficient asy s x j slope := by
  have hu : 0 < asy.above x j := sub_pos.2 (hx j).2
  exact mul_pos (slopeShares_pos hr (gap_pos asy j)).1 (mul_pos hu hu)

lemma lowerCoefficient_pos (hx : asy.Encloses x) (hr : 0 < s.raa0) :
    0 < lowerCoefficient asy s x j slope := by
  have hl : 0 < asy.below x j := sub_pos.2 (hx j).1
  exact mul_pos (slopeShares_pos hr (gap_pos asy j)).2 (mul_pos hl hl)

/-- The gradient of a term at the design is the slope it stands for. -/
lemma coefficients_slope (hx : asy.Encloses x) :
    upperCoefficient asy s x j slope / (asy.above x j * asy.above x j) -
      lowerCoefficient asy s x j slope / (asy.below x j * asy.below x j) = slope := by
  have hu : asy.above x j ≠ 0 := (sub_pos.2 (hx j).2).ne'
  have hl : asy.below x j ≠ 0 := (sub_pos.2 (hx j).1).ne'
  unfold upperCoefficient lowerCoefficient
  rw [mul_div_cancel_right₀ _ (mul_ne_zero hu hu), mul_div_cancel_right₀ _ (mul_ne_zero hl hl)]
  exact slopeShares_sub

end Coefficients

section Lagrangian

variable (a : Approximation ℝ n m) (lambda : Vector ℝ m) (x : Vector ℝ n)

lemma entry_plam (j : Fin n) :
    (a.lagrangian lambda).plam[j] = a.p0[j] + ∑ i : Fin m, a.p[j][i] * lambda[i] := by
  unfold lagrangian
  rw [entry_zipWith, Mat.entry_mulVec]

lemma entry_qlam (j : Fin n) :
    (a.lagrangian lambda).qlam[j] = a.q0[j] + ∑ i : Fin m, a.q[j][i] * lambda[i] := by
  unfold lagrangian
  rw [entry_zipWith, Mat.entry_mulVec]

lemma entry_lagrangianGradient (l : Lagrangian ℝ n) (j : Fin n) :
    (a.lagrangianGradient x l)[j] =
      l.plam[j] / (a.asymptotes.above x j * a.asymptotes.above x j) -
        l.qlam[j] / (a.asymptotes.below x j * a.asymptotes.below x j) :=
  entry_ofFn _ j

lemma entry_localSums (i : Fin m) :
    (a.localSums x)[i] = ∑ j : Fin n,
      (a.p[j][i] * (1 / a.asymptotes.above x j) + a.q[j][i] * (1 / a.asymptotes.below x j)) := by
  unfold localSums
  rw [entry_ofFn, sumOver_eq_sum]

variable {a lambda}

/-- With multipliers that are not negative the coefficients of the Lagrangian are no smaller than those of
the objective. -/
lemma Convex.p0_le_plam (h : a.Convex) (hl : ∀ i : Fin m, 0 ≤ lambda[i]) (j : Fin n) :
    a.p0[j] ≤ (a.lagrangian lambda).plam[j] := by
  rw [entry_plam]
  exact le_add_of_nonneg_right (Finset.sum_nonneg fun i _ => mul_nonneg (h.p_nonneg j i) (hl i))

lemma Convex.q0_le_qlam (h : a.Convex) (hl : ∀ i : Fin m, 0 ≤ lambda[i]) (j : Fin n) :
    a.q0[j] ≤ (a.lagrangian lambda).qlam[j] := by
  rw [entry_qlam]
  exact le_add_of_nonneg_right (Finset.sum_nonneg fun i _ => mul_nonneg (h.q_nonneg j i) (hl i))

lemma Convex.plam_nonneg (h : a.Convex) (hl : ∀ i : Fin m, 0 ≤ lambda[i]) (j : Fin n) :
    0 ≤ (a.lagrangian lambda).plam[j] :=
  (h.p0_nonneg j).trans (h.p0_le_plam hl j)

lemma Convex.qlam_nonneg (h : a.Convex) (hl : ∀ i : Fin m, 0 ≤ lambda[i]) (j : Fin n) :
    0 ≤ (a.lagrangian lambda).qlam[j] :=
  (h.q0_nonneg j).trans (h.q0_le_qlam hl j)

lemma WellPosed.plam_pos (h : a.WellPosed) (hl : ∀ i : Fin m, 0 ≤ lambda[i]) (j : Fin n) :
    0 < (a.lagrangian lambda).plam[j] :=
  (h.p0_pos j).trans_le (h.convex.p0_le_plam hl j)

lemma WellPosed.qlam_pos (h : a.WellPosed) (hl : ∀ i : Fin m, 0 ≤ lambda[i]) (j : Fin n) :
    0 < (a.lagrangian lambda).qlam[j] :=
  (h.q0_pos j).trans_le (h.convex.q0_le_qlam hl j)

end Lagrangian

section Build

variable (x : Vector ℝ n) (d : Gradients ℝ n m) (asy : Asymptotes ℝ n) (limits : MoveLimits ℝ n)
  (nGlobal : Nat) (s : Settings ℝ)

/-- The approximation that a single rank builds. -/
noncomputable def around : Approximation ℝ n m :=
  let a := coefficients x d asy limits nGlobal s
  { a with b := Vector.zipWith (· - ·) (a.localSums x) d.g }

lemma build_serial :
    (build x d asy limits nGlobal s).serial = .done (around x d asy limits nGlobal s) := rfl

variable {x asy s}

/-- The gradient of the Lagrangian at the design is that of the problem. -/
theorem lagrangianGradient_around (hx : asy.Encloses x) (lambda : Vector ℝ m) (j : Fin n) :
    ((around x d asy limits nGlobal s).lagrangianGradient x
      ((around x d asy limits nGlobal s).lagrangian lambda))[j] =
      d.dfdx[j] + ∑ i : Fin m, d.dgdx[j][i] * lambda[i] := by
  let u := asy.above x j * asy.above x j
  let l := asy.below x j * asy.below x j
  rw [entry_lagrangianGradient, entry_plam, entry_qlam]
  simp only [around, coefficients, entry_ofFn, Mat.getElem_ofFn]
  calc (upperCoefficient asy s x j d.dfdx[j] +
          ∑ i : Fin m, upperCoefficient asy s x j d.dgdx[j][i] * lambda[i]) / u -
        (lowerCoefficient asy s x j d.dfdx[j] +
          ∑ i : Fin m, lowerCoefficient asy s x j d.dgdx[j][i] * lambda[i]) / l
      = (upperCoefficient asy s x j d.dfdx[j] / u - lowerCoefficient asy s x j d.dfdx[j] / l) +
          ∑ i : Fin m, (upperCoefficient asy s x j d.dgdx[j][i] / u -
            lowerCoefficient asy s x j d.dgdx[j][i] / l) * lambda[i] := by
        simp only [sub_mul, Finset.sum_sub_distrib, add_div, Finset.sum_div, div_mul_eq_mul_div]
        ring
    _ = d.dfdx[j] + ∑ i : Fin m, d.dgdx[j][i] * lambda[i] := by
        rw [coefficients_slope hx]
        exact congrArg _ (Finset.sum_congr rfl fun i _ => by rw [coefficients_slope hx])

/-- The values of the constraints at the design are those given. -/
theorem localSums_sub_around (i : Fin m) :
    ((around x d asy limits nGlobal s).localSums x)[i] - (around x d asy limits nGlobal s).b[i] =
      d.g[i] := by
  have hb : (around x d asy limits nGlobal s).b[i] =
      ((around x d asy limits nGlobal s).localSums x)[i] - d.g[i] := entry_zipWith _ _ _ i
  rw [hb, sub_sub_cancel]

/-- The regularisation keeps the coefficients around a design away from zero, whatever the slopes. -/
lemma around_raised (hx : asy.Encloses x) (hr : 0 < s.raa0) : (around x d asy limits nGlobal s).Raised where
  p0_pos j := by
    simp only [around, coefficients, entry_ofFn]
    exact upperCoefficient_pos hx hr
  q0_pos j := by
    simp only [around, coefficients, entry_ofFn]
    exact lowerCoefficient_pos hx hr
  p_pos j i := by
    simp only [around, coefficients, Mat.getElem_ofFn]
    exact upperCoefficient_pos hx hr
  q_pos j i := by
    simp only [around, coefficients, Mat.getElem_ofFn]
    exact lowerCoefficient_pos hx hr

/-- The approximation around a design is well posed. -/
theorem around_wellPosed {limits : MoveLimits ℝ n} {b : Bounds ℝ n} (hx : asy.Encloses x)
    (hl : limits.Nested asy b x) (hs : s.Valid) : (around x d asy limits nGlobal s).WellPosed := by
  have raised := around_raised d limits nGlobal hx hs.raa0_pos
  exact ⟨raised.p0_pos, raised.q0_pos, fun j i => (raised.p_pos j i).le, fun j i => (raised.q_pos j i).le,
    hl.low_lt_alfa, hl.alfa_lt_beta, hl.beta_lt_upp⟩

end Build

end Approximation

end MovingAsymptotes
