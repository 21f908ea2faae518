import Mathlib
import MovingAsymptotes.Linear.Elimination
import MovingAsymptotes.Proofs.Linear.Vector

/-!
# Gaussian elimination over the reals

A dense system has a solution by elimination exactly if its matrix is regular, and what elimination
finds is then the only solution. The induction follows the algorithm: exchanging equations and taking a
multiple of the top equation from the others both keep the solutions, and a pivot that vanishes although
it is the largest of its column leaves the first unknown free.

* `solve?_eq_none_iff`: elimination gives up exactly on a singular matrix.
* `solves_of_solve?`: what it finds solves the system.
* `Regular.exists_solve?`: on a regular matrix it finds the only solution.
-/

namespace MovingAsymptotes.Mat

variable {n m : Nat}

/-- The matrix of mathematics with the same entries. -/
def toMatrix (a : Mat ℝ n m) : Matrix (Fin n) (Fin m) ℝ := Matrix.of fun i j => a[i][j]

/-- The vector `x` satisfies all equations of the system `a x = b`. -/
def Solves (a : Mat ℝ n n) (b x : Vector ℝ n) : Prop :=
  ∀ i : Fin n, ∑ j : Fin n, a[i][j] * x[j] = b[i]

/-- Only zero satisfies all equations of the system `a x = 0`. -/
def Regular (a : Mat ℝ n n) : Prop :=
  ∀ x : Fin n → ℝ, (∀ i : Fin n, ∑ j : Fin n, a[i][j] * x j = 0) → x = 0

lemma Regular.unique {a : Mat ℝ n n} (h : a.Regular) {b x y : Vector ℝ n}
    (hx : a.Solves b x) (hy : a.Solves b y) : x = y := by
  have hz : (fun j : Fin n => x[j] - y[j]) = 0 := by
    refine h _ fun i => ?_
    calc ∑ j : Fin n, a[i][j] * (x[j] - y[j])
        = ∑ j : Fin n, a[i][j] * x[j] - ∑ j : Fin n, a[i][j] * y[j] := by
          rw [← Finset.sum_sub_distrib]
          exact Finset.sum_congr rfl fun j _ => mul_sub _ _ _
      _ = 0 := by rw [hx i, hy i, sub_self]
  exact vector_ext fun j => sub_eq_zero.1 (congrFun hz j)

lemma entry_swap {α : Type} (v : Vector α n) (i j k : Fin n) :
    (v.swap i j)[k] = v[Equiv.swap i j k] := by
  rw [getElem_fin, Vector.getElem_swap]
  split
  · next h => simp only [Fin.ext h, Equiv.swap_apply_left, getElem_fin]
  · next h₁ =>
    split
    · next h => simp only [Fin.ext h, Equiv.swap_apply_right, getElem_fin]
    · next h₂ =>
      have hk : Equiv.swap i j k = k :=
        Equiv.swap_apply_of_ne_of_ne (fun e => h₁ (congrArg _ e)) (fun e => h₂ (congrArg _ e))
      simp only [hk, getElem_fin]

/-- What holds for every equation holds for every equation once two of them are exchanged. -/
lemma forall_swap_iff {p : Fin n → Prop} (i j : Fin n) : (∀ k, p (Equiv.swap i j k)) ↔ ∀ k, p k :=
  (Equiv.swap i j).forall_congr_right

lemma solves_swap_iff (a : Mat ℝ n n) (b x : Vector ℝ n) (i j : Fin n) :
    Solves (a.swap i j) (b.swap i j) x ↔ a.Solves b x := by
  simp only [Solves, entry_swap]
  exact forall_swap_iff (p := fun k => ∑ l : Fin n, a[k][l] * x[l] = b[k]) i j

lemma regular_swap_iff (a : Mat ℝ n n) (i j : Fin n) : Regular (a.swap i j) ↔ a.Regular := by
  simp only [Regular, entry_swap]
  exact forall_congr' fun x => imp_congr_left <|
    forall_swap_iff (p := fun k => ∑ l : Fin n, a[k][l] * x l = 0) i j

section Pivot

variable (a : Mat ℝ (n + 1) (n + 1))

/-- The leading coefficient of an equation. -/
def lead (i : Fin (n + 1)) : ℝ := a[i][first n]

/-- No equation has a larger leading coefficient than the pivot row. -/
lemma abs_lead_le (i : Fin (n + 1)) : |a.lead i| ≤ |a.lead a.pivotRow| := by
  let f := fun (best : Fin (n + 1)) (i : Fin n) =>
    if |a.lead best| < |a.lead i.succ| then i.succ else best
  -- The search over any list, from any row, ends with a row that none of those seen beats.
  have h : ∀ (l : List (Fin n)) (best : Fin (n + 1)),
      |a.lead best| ≤ |a.lead (l.foldl f best)| ∧
        ∀ i ∈ l, |a.lead i.succ| ≤ |a.lead (l.foldl f best)| := by
    intro l
    induction l with
    | nil => simp
    | cons j l ih =>
      intro best
      obtain ⟨h₁, h₂⟩ := ih (f best j)
      have hb : |a.lead best| ≤ |a.lead (f best j)| ∧ |a.lead j.succ| ≤ |a.lead (f best j)| := by
        unfold f
        split
        · next h => exact ⟨h.le, le_refl _⟩
        · next h => exact ⟨le_refl _, not_lt.1 h⟩
      refine ⟨hb.1.trans h₁, fun i hi => ?_⟩
      cases hi with
      | head => exact hb.2.trans h₁
      | tail _ hi => exact h₂ i hi
  have e : a.pivotRow = (List.finRange n).foldl f 0 := Fin.foldl_eq_foldl_finRange f 0
  rw [e]
  cases i using Fin.cases with
  | zero => exact (h _ 0).1
  | succ i => exact (h _ 0).2 i (List.mem_finRange i)

/-- With a vanishing pivot the first unknown is free. -/
lemma not_regular_of_pivot_eq_zero (h : a.lead a.pivotRow = 0) : ¬ a.Regular := by
  intro hr
  have h0 : ∀ i, a.lead i = 0 := by
    intro i
    have hi := a.abs_lead_le i
    rw [h, abs_zero] at hi
    exact abs_nonpos_iff.1 hi
  have hx := hr (Fin.cons 1 0) fun i => by
    rw [Fin.sum_univ_succ]
    simpa [lead] using h0 i
  exact one_ne_zero (congrFun hx 0)

/-- The multiple of the top equation that is taken away is the ratio of the leading coefficients. -/
lemma multiplier_mul_lead (h : a.lead 0 ≠ 0) (i : Fin n) :
    a.multiplier i * a.lead 0 = a.lead i.succ := by
  have e : a.multiplier i = a.lead i.succ * (1 / a.lead 0) := rfl
  rw [e, mul_assoc, one_div_mul_cancel h, mul_one]

/-- An equation of the system that is left: a multiple of the top equation is taken away. -/
lemma sum_eliminated (x : Fin n → ℝ) (i : Fin n) :
    ∑ j : Fin n, a.eliminated[i][j] * x j =
      ∑ j : Fin n, a[i.succ][j.succ] * x j - a.multiplier i * ∑ j : Fin n, a[first n][j.succ] * x j := by
  rw [Finset.mul_sum, ← Finset.sum_sub_distrib]
  refine Finset.sum_congr rfl fun j _ => ?_
  unfold eliminated
  rw [Mat.getElem_ofFn]
  ring

lemma entry_eliminatedRhs (b : Vector ℝ (n + 1)) (i : Fin n) :
    (a.eliminatedRhs b)[i] = b[i.succ] - a.multiplier i * b[first n] := by
  unfold eliminatedRhs
  rw [entry_ofFn]
  ring

/-- With a pivot that does not vanish, the later unknowns of a solution solve the system that is left,
and the first unknown follows from the top equation. -/
lemma equations_iff (h : a.lead 0 ≠ 0) (b : Vector ℝ (n + 1)) (x₀ : ℝ) (x : Fin n → ℝ) :
    (∀ i : Fin (n + 1), a.lead i * x₀ + ∑ j : Fin n, a[i][j.succ] * x j = b[i]) ↔
      (∀ i : Fin n, ∑ j : Fin n, a.eliminated[i][j] * x j = (a.eliminatedRhs b)[i]) ∧
        x₀ = (b[first n] - ∑ j : Fin n, a[first n][j.succ] * x j) / a.lead 0 := by
  rw [Fin.forall_fin_succ, and_comm]
  simp only [sum_eliminated, entry_eliminatedRhs, ← a.multiplier_mul_lead h]
  have top : a.lead 0 * x₀ + ∑ j : Fin n, a[(0 : Fin (n + 1))][j.succ] * x j = b[(0 : Fin (n + 1))] ↔
      x₀ = (b[first n] - ∑ j : Fin n, a[first n][j.succ] * x j) / a.lead 0 := by
    rw [eq_div_iff h, eq_sub_iff_add_eq, mul_comm x₀]
    rfl
  rw [top]
  refine and_congr_left fun hx => forall_congr' fun i => ?_
  rw [eq_div_iff h] at hx
  rw [mul_assoc, mul_comm (a.lead 0), hx, mul_sub]
  constructor <;> intro hi <;> linarith

/-- With a pivot that does not vanish, a matrix is regular if the system that is left is. -/
lemma regular_eliminated_iff (h : a.lead 0 ≠ 0) : a.eliminated.Regular ↔ a.Regular := by
  have hb : ∀ i : Fin n, (a.eliminatedRhs (Vector.replicate (n + 1) 0))[i] = 0 := by
    intro i
    unfold eliminatedRhs
    simp
  have key := fun x₀ x => a.equations_iff h (Vector.replicate (n + 1) 0) x₀ x
  simp only [hb, entry_replicate] at key
  constructor
  · intro hr x hx
    obtain ⟨others, first⟩ := (key (x 0) fun j => x j.succ).1 fun i => by
      rw [← hx i, Fin.sum_univ_succ]
      rfl
    have hz := hr _ others
    funext j
    cases j using Fin.cases with
    | zero => simpa [congrFun hz] using first
    | succ j => exact congrFun hz j
  -- A solution of what is left extends to all unknowns, so both vanish.
  · intro hr x hx
    let x₀ : ℝ := ((Vector.replicate (n + 1) (0 : ℝ))[first n] - ∑ j : Fin n, a[first n][j.succ] * x j) / a.lead 0
    have hz := hr (Fin.cons x₀ x) fun i => by
      rw [Fin.sum_univ_succ]
      exact (key x₀ x).2 ⟨hx, rfl⟩ i
    funext j
    exact congrFun hz j.succ

lemma firstUnknown_eq (b : Vector ℝ (n + 1)) (x : Vector ℝ n) :
    a.firstUnknown b x =
      (b[first n] - ∑ j : Fin n, a[first n][j.succ] * x[j]) / a.lead 0 := by
  have h : ∀ (l : List (Fin n)) (r : ℝ),
      l.foldr (fun j acc => acc + -x[j] * a[first n][j.succ]) r =
        r - (l.map fun j => a[first n][j.succ] * x[j]).sum := by
    intro l r
    induction l with
    | nil => simp
    | cons j l ih =>
      rw [List.foldr_cons, ih, List.map_cons, List.sum_cons]
      ring
  unfold firstUnknown
  rw [Fin.foldr_eq_foldr_finRange, h, Fin.sum_univ_def]
  rfl

end Pivot

/-- The exchange that brings the pivot row to the top. -/
lemma lead_swap_pivotRow (a : Mat ℝ (n + 1) (n + 1)) :
    lead (a.swap (0 : Fin (n + 1)) a.pivotRow) 0 = a.lead a.pivotRow := by
  unfold lead
  simp only [entry_swap, Equiv.swap_apply_left]

/-- Elimination gives up exactly on a singular matrix. -/
theorem solve?_eq_none_iff (a : Mat ℝ n n) (b : Vector ℝ n) : a.solve? b = none ↔ ¬ a.Regular := by
  induction n with
  | zero =>
    simp only [solve?, reduceCtorEq, false_iff, not_not]
    exact fun x _ => funext fun i => i.elim0
  | succ n ih =>
    simp only [solve?, agrees_iff]
    split
    · next h =>
      exact iff_of_true rfl (a.not_regular_of_pivot_eq_zero (a.lead_swap_pivotRow ▸ h))
    · next h =>
      rw [Option.map_eq_none_iff, ih, regular_eliminated_iff _ h]
      exact not_congr (a.regular_swap_iff 0 a.pivotRow)

/-- What elimination finds solves the system. -/
theorem solves_of_solve? {a : Mat ℝ n n} {b x : Vector ℝ n} (h : a.solve? b = some x) :
    a.Solves b x := by
  induction n with
  | zero => exact fun i => i.elim0
  | succ n ih =>
    simp only [solve?, agrees_iff] at h
    split at h
    · cases h
    · next hp =>
      obtain ⟨y, hy, rfl⟩ := Option.map_eq_some_iff.1 h
      -- It is enough to solve the equations in the order in which they were eliminated.
      refine (a.solves_swap_iff b _ 0 a.pivotRow).1 ?_
      have others := ih hy
      have hs := (equations_iff _ hp _ _ _).2 ⟨others, firstUnknown_eq _ _ _⟩
      intro i
      rw [Fin.sum_univ_succ]
      simp only [entry_ofFn, Fin.cases_zero, Fin.cases_succ]
      exact hs i

/-- On a regular matrix elimination finds the solution. -/
theorem Regular.exists_solve? {a : Mat ℝ n n} (h : a.Regular) (b : Vector ℝ n) :
    ∃ x, a.solve? b = some x ∧ a.Solves b x := by
  cases hs : a.solve? b with
  | none => exact absurd h ((a.solve?_eq_none_iff b).1 hs)
  | some x => exact ⟨x, rfl, solves_of_solve? hs⟩

end MovingAsymptotes.Mat
