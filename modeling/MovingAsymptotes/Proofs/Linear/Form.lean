import MovingAsymptotes.Proofs.Linear.Elimination

/-!
# Quadratic forms

A matrix whose quadratic form vanishes at zero only is regular. The forms of the matrices that the dual
method puts together are found piece by piece: a product `a d aᵀ`, a product of two columns, and what is
added to the diagonal.
-/

namespace MovingAsymptotes.Mat

variable {n m : Nat} {a b : Mat ℝ n n} {v : Fin n → ℝ}

/-- The quadratic form of a matrix. -/
def form (a : Mat ℝ n n) (v : Fin n → ℝ) : ℝ := ∑ i : Fin n, v i * ∑ k : Fin n, a[i][k] * v k

/-- A matrix is regular if its quadratic form vanishes at zero only. -/
lemma regular_of_form (h : ∀ v, a.form v = 0 → v = 0) : a.Regular := by
  intro v hv
  refine h v (Finset.sum_eq_zero fun i _ => ?_)
  rw [hv i, mul_zero]

lemma form_add_diagonal {t : Fin n → ℝ}
    (h : ∀ i k : Fin n, a[i][k] = b[i][k] + if i = k then t i else 0) (v : Fin n → ℝ) :
    a.form v = b.form v + ∑ i : Fin n, t i * v i ^ 2 := by
  unfold form
  rw [← Finset.sum_add_distrib]
  refine Finset.sum_congr rfl fun i _ => ?_
  rw [sum_add_diagonal h]
  ring

lemma form_sub_outer {u : Fin n → ℝ} {c : ℝ} (h : ∀ i k : Fin n, a[i][k] = b[i][k] - u i * u k * c)
    (v : Fin n → ℝ) : a.form v = b.form v - c * (∑ i : Fin n, u i * v i) ^ 2 := by
  have hs : ∀ i : Fin n, ∑ k : Fin n, a[i][k] * v k =
      ∑ k : Fin n, b[i][k] * v k - u i * c * ∑ k : Fin n, u k * v k := by
    intro i
    rw [Finset.mul_sum, ← Finset.sum_sub_distrib]
    refine Finset.sum_congr rfl fun k _ => ?_
    rw [h]
    ring
  unfold form
  rw [sq, ← mul_assoc, Finset.mul_sum, ← Finset.sum_sub_distrib]
  refine Finset.sum_congr rfl fun i _ => ?_
  rw [hs]
  ring

/-- The form of `g d gᵀ` is a sum of weighted squares. -/
lemma form_congruence (g : Mat ℝ n m) (d : Vector ℝ m) (v : Fin n → ℝ) :
    (g.congruence d).form v = ∑ j : Fin m, d[j] * (∑ i : Fin n, g[i][j] * v i) ^ 2 := by
  unfold form
  simp only [sum_congruence, Finset.mul_sum]
  rw [Finset.sum_comm]
  refine Finset.sum_congr rfl fun j _ => ?_
  rw [sq, Finset.sum_mul_sum, Finset.mul_sum]
  refine Finset.sum_congr rfl fun i _ => ?_
  rw [Finset.mul_sum]
  exact Finset.sum_congr rfl fun k _ => by ring

lemma form_neg (h : ∀ i k : Fin n, a[i][k] = -b[i][k]) (v : Fin n → ℝ) : a.form v = -b.form v := by
  unfold form
  simp only [h, neg_mul, Finset.sum_neg_distrib, mul_neg]

end MovingAsymptotes.Mat
