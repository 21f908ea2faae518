import Mathlib
import MovingAsymptotes.Kkt.Residual
import MovingAsymptotes.Proofs.Approximation

/-!
# Residuals row by row

A residual vanishes if all rows do, and it is small if all rows are. The rows themselves are the
optimality conditions, and they are named here: stationarity in `x`, `y` and `z`, feasibility, and the
complementarity of the limits, of `y`, of `z` and of the slacks.

* `Residual.norm_ofRows_eq_zero_iff`, `Residual.max_ofRows_le_iff`: the measures of a list of rows.
* `Approximation.residual_serial`: the residual of the subproblem on a single rank.
* `Approximation.Rows.of_residual`: the rows of a residual that vanishes.
* `Approximation.forall_mem_rows_iff`, `Gradients.forall_mem_rows_iff`: the rows by name.
-/

namespace MovingAsymptotes

variable {n m : Nat}

section Measures

lemma Tally.squares_ofRows (rows : List ℝ) :
    (Tally.ofRows rows).squares = (rows.map fun r => r * r).sum := by
  have h : ∀ t : Tally ℝ, (rows.foldl
      (fun t r => { squares := t.squares + r * r, max := larger t.max (Scalar.abs r) }) t).squares =
      t.squares + (rows.map fun r => r * r).sum := by
    induction rows with
    | nil => simp
    | cons r rows ih =>
      intro t
      rw [List.foldl_cons, ih, List.map_cons, List.sum_cons, add_assoc]
  unfold Tally.ofRows
  rw [h, zero_add]

lemma Tally.max_ofRows (rows : List ℝ) :
    (Tally.ofRows rows).max = (rows.map fun r => |r|).foldl larger 0 := by
  have h : ∀ t : Tally ℝ, (rows.foldl
      (fun t r => { squares := t.squares + r * r, max := larger t.max (Scalar.abs r) }) t).max =
      (rows.map fun r => |r|).foldl larger t.max := by
    induction rows with
    | nil => exact fun t => rfl
    | cons r rows ih => exact fun t => ih _
  exact h _

lemma Tally.max_ofRows_le_iff {rows : List ℝ} {c : ℝ} :
    (Tally.ofRows rows).max ≤ c ↔ 0 ≤ c ∧ ∀ r ∈ rows, |r| ≤ c := by
  rw [Tally.max_ofRows, foldl_larger_le_iff, List.forall_mem_map]

lemma Tally.squares_ofRows_nonneg (rows : List ℝ) : 0 ≤ (Tally.ofRows rows).squares := by
  rw [Tally.squares_ofRows]
  exact List.sum_nonneg (by simp [mul_self_nonneg])

/-- The squares of some rows add up to zero if all of them vanish. -/
lemma Tally.squares_ofRows_eq_zero_iff {rows : List ℝ} :
    (Tally.ofRows rows).squares = 0 ↔ ∀ r ∈ rows, r = 0 := by
  induction rows with
  | nil => exact iff_of_true rfl nofun
  | cons r rows ih =>
    have hn := Tally.squares_ofRows_nonneg rows
    rw [Tally.squares_ofRows] at ih hn ⊢
    rw [List.map_cons, List.sum_cons, add_eq_zero_iff_of_nonneg (mul_self_nonneg r) hn, ih,
      mul_self_eq_zero, List.forall_mem_cons]

/-- The residual of a rank's own rows and those that all ranks share. -/
noncomputable def Residual.ofRows (own shared : List ℝ) : Residual ℝ :=
  .ofTallies (Tally.ofRows own).squares (Tally.ofRows own).max (Tally.ofRows shared)

/-- A residual vanishes if all its rows do. -/
theorem Residual.norm_ofRows_eq_zero_iff {own shared : List ℝ} :
    (Residual.ofRows own shared).norm = 0 ↔ ∀ r ∈ own ++ shared, r = 0 := by
  have ho := Tally.squares_ofRows_nonneg own
  have hs := Tally.squares_ofRows_nonneg shared
  change √((Tally.ofRows own).squares + (Tally.ofRows shared).squares) = 0 ↔ _
  rw [Real.sqrt_eq_zero (add_nonneg ho hs), add_eq_zero_iff_of_nonneg ho hs,
    Tally.squares_ofRows_eq_zero_iff, Tally.squares_ofRows_eq_zero_iff, List.forall_mem_append]

/-- A residual is bounded as all its rows are. -/
theorem Residual.max_ofRows_le_iff {own shared : List ℝ} {c : ℝ} :
    (Residual.ofRows own shared).max ≤ c ↔ 0 ≤ c ∧ ∀ r ∈ own ++ shared, |r| ≤ c := by
  change larger (Tally.ofRows own).max (Tally.ofRows shared).max ≤ c ↔ _
  rw [larger_eq_max, max_le_iff, Tally.max_ofRows_le_iff, Tally.max_ofRows_le_iff,
    List.forall_mem_append]
  exact ⟨fun h => ⟨h.1.1, h.1.2, h.2.2⟩, fun h => ⟨⟨h.1, h.2.1⟩, h.1, h.2.2⟩⟩

end Measures

/-- The rows that all ranks share have a property, from given violations of the constraints. -/
structure SharedRows (wt : Weights ℝ m) (w : KktPoint ℝ n m) (violations : Vector ℝ m) (epsi : ℝ)
    (p : ℝ → Prop) : Prop where
  /-- Stationarity in `y`. -/
  artificial : ∀ i : Fin m, p (wt.c[i] + wt.d[i] * w.y[i] - w.mu[i] - w.lambda[i])
  /-- Stationarity in `z`. -/
  common : p (wt.a0 - w.zet - dot wt.a w.lambda)
  /-- The constraints with their slacks. -/
  feasible : ∀ i : Fin m, p violations[i]
  /-- Complementarity of `y`. -/
  artificialSign : ∀ i : Fin m, p (w.mu[i] * w.y[i] - epsi)
  /-- Complementarity of `z`. -/
  commonSign : p (w.zet * w.z - epsi)
  /-- Complementarity of the slacks. -/
  slack : ∀ i : Fin m, p (w.lambda[i] * w.s[i] - epsi)

lemma forall_mem_sharedRows_iff {wt : Weights ℝ m} {w : KktPoint ℝ n m} {violations : Vector ℝ m}
    {epsi : ℝ} {p : ℝ → Prop} :
    (∀ r ∈ sharedRows wt w.y w.mu w.lambda w.s w.z w.zet violations epsi, p r) ↔
      SharedRows wt w violations epsi p := by
  unfold sharedRows
  simp only [List.forall_mem_append, List.forall_mem_singleton, forall_mem_map_finRange,
    forall_mem_toList, and_assoc]
  constructor
  · rintro ⟨h₁, h₂, h₃, h₄, h₅, h₆⟩
    exact ⟨h₁, h₂, h₃, h₄, h₅, h₆⟩
  · rintro ⟨h₁, h₂, h₃, h₄, h₅, h₆⟩
    exact ⟨h₁, h₂, h₃, h₄, h₅, h₆⟩

/-- A rank's own rows come in three kinds, with one row of each kind for every variable. -/
lemma forall_mem_rows_append_iff {f g h : Fin n → ℝ} {shared : List ℝ} {p : ℝ → Prop} :
    (∀ r ∈ ((List.finRange n).flatMap fun j => [f j, g j, h j]) ++ shared, p r) ↔
      (∀ j, p (f j)) ∧ (∀ j, p (g j)) ∧ (∀ j, p (h j)) ∧ ∀ r ∈ shared, p r := by
  simp only [List.forall_mem_append, forall_mem_flatMap_finRange, List.forall_mem_cons, List.not_mem_nil,
    IsEmpty.forall_iff, implies_true, and_true, forall_and, and_assoc]

namespace Approximation

variable (a : Approximation ℝ n m) (wt : Weights ℝ m) (w : KktPoint ℝ n m) (epsi : ℝ)

/-- All rows of the subproblem, as a single rank sees them. -/
noncomputable def rows : List ℝ :=
  a.localRows w epsi ++ sharedRows wt w.y w.mu w.lambda w.s w.z w.zet
    (a.violations wt w (a.localSums w.x)) epsi

/-- The residual of the subproblem, as a single rank sees it. -/
noncomputable def residualOf : Residual ℝ :=
  .ofRows (a.localRows w epsi) (sharedRows wt w.y w.mu w.lambda w.s w.z w.zet
    (a.violations wt w (a.localSums w.x)) epsi)

theorem residual_serial : (a.residual wt w epsi).serial = .done (a.residualOf wt w epsi) := by
  unfold residual residualOf Residual.ofRows
  simp only [Program.serial_bind, Program.serial_reduceAll, Program.serial_reduceScalar,
    Program.serial_pure, Outcome.andThen, Vector.pop_push, entry_push_last]

/-- The rows of the subproblem have a property. -/
structure Rows (p : ℝ → Prop) : Prop where
  /-- Stationarity in `x`. -/
  stationary : ∀ j : Fin n,
    p ((a.lagrangianGradient w.x (a.lagrangian w.lambda))[j] - w.xsi[j] + w.eta[j])
  /-- Complementarity of the lower move limits. -/
  lowerSide : ∀ j : Fin n, p (w.xsi[j] * (w.x[j] - a.limits.alfa[j]) - epsi)
  /-- Complementarity of the upper move limits. -/
  upperSide : ∀ j : Fin n, p (w.eta[j] * (a.limits.beta[j] - w.x[j]) - epsi)
  /-- The rows of the constraints. -/
  shared : SharedRows wt w (a.violations wt w (a.localSums w.x)) epsi p

/-- The rows of the subproblem, by name. -/
theorem forall_mem_rows_iff {p : ℝ → Prop} :
    (∀ r ∈ a.rows wt w epsi, p r) ↔ a.Rows wt w epsi p := by
  unfold rows localRows
  rw [forall_mem_rows_append_iff, forall_mem_sharedRows_iff]
  exact ⟨fun ⟨h₁, h₂, h₃, h₄⟩ => ⟨h₁, h₂, h₃, h₄⟩, fun ⟨h₁, h₂, h₃, h₄⟩ => ⟨h₁, h₂, h₃, h₄⟩⟩

/-- A residual of the subproblem vanishes if its rows do. -/
lemma residualOf_norm_eq_zero_iff :
    (a.residualOf wt w epsi).norm = 0 ↔ a.Rows wt w epsi (· = 0) := by
  unfold residualOf
  rw [Residual.norm_ofRows_eq_zero_iff, ← forall_mem_rows_iff]
  rfl

variable {a wt w epsi} in
/-- The rows of a residual that was found to vanish. -/
lemma Rows.of_residual {r : Residual ℝ} (hr : (a.residual wt w epsi).serial = .done r)
    (hn : r.norm = 0) : a.Rows wt w epsi (· = 0) := by
  rw [residual_serial] at hr
  cases hr
  exact (a.residualOf_norm_eq_zero_iff wt w epsi).1 hn

/-- A residual of the subproblem is bounded as its rows are. -/
lemma residualOf_max_le_iff {c : ℝ} :
    (a.residualOf wt w epsi).max ≤ c ↔ 0 ≤ c ∧ a.Rows wt w epsi fun r => |r| ≤ c := by
  unfold residualOf
  rw [Residual.max_ofRows_le_iff, ← forall_mem_rows_iff]
  rfl

/-- The relaxation of the complementarity rows is all that a residual can gain once it is dropped. -/
theorem residualOf_zero_max_le {c e : ℝ} (he : 0 ≤ e) (h : (a.residualOf wt w e).max ≤ c) :
    (a.residualOf wt w 0).max ≤ c + e := by
  obtain ⟨hc, h⟩ := (a.residualOf_max_le_iff wt w e).1 h
  have same : ∀ {r : ℝ}, |r| ≤ c → |r| ≤ c + e := fun hr => by linarith
  have relaxed : ∀ {r : ℝ}, |r - e| ≤ c → |r - 0| ≤ c + e := by
    intro r hr
    rw [abs_le] at hr ⊢
    constructor <;> linarith
  refine (a.residualOf_max_le_iff wt w 0).2 ⟨by linarith, ?_⟩
  exact
    { stationary := fun j => same (h.stationary j)
      lowerSide := fun j => relaxed (h.lowerSide j)
      upperSide := fun j => relaxed (h.upperSide j)
      shared :=
        { artificial := fun i => same (h.shared.artificial i)
          common := same h.shared.common
          feasible := fun i => same (h.shared.feasible i)
          artificialSign := fun i => relaxed (h.shared.artificialSign i)
          commonSign := relaxed h.shared.commonSign
          slack := fun i => relaxed (h.shared.slack i) } }

end Approximation

namespace Gradients

variable (d : Gradients ℝ n m) (x : Vector ℝ n) (bounds : Bounds ℝ n) (wt : Weights ℝ m)
  (w : KktPoint ℝ n m)

/-- The residual of the problem itself, as a single rank sees it. -/
noncomputable def residualOf : Residual ℝ :=
  .ofRows (d.localRows x bounds w)
    (sharedRows wt w.y w.mu w.lambda w.s w.z w.zet (d.violations wt w) 0)

theorem residual_serial :
    (d.residual x bounds wt w).serial = .done (d.residualOf x bounds wt w) := by
  unfold residual residualOf Residual.ofRows
  simp only [Program.serial_bind, Program.serial_reduceScalar, Program.serial_pure, Outcome.andThen]

/-- The rows of the problem itself have a property. -/
structure Rows (p : ℝ → Prop) : Prop where
  /-- Stationarity in `x`. -/
  stationary : ∀ j : Fin n, p (d.dfdx[j] + (d.dgdx.mulVec w.lambda)[j] - w.xsi[j] + w.eta[j])
  /-- Complementarity of the lower bounds. -/
  lowerSide : ∀ j : Fin n, p (w.xsi[j] * (x[j] - bounds.lower[j]))
  /-- Complementarity of the upper bounds. -/
  upperSide : ∀ j : Fin n, p (w.eta[j] * (bounds.upper[j] - x[j]))
  /-- The rows of the constraints. -/
  shared : SharedRows wt w (d.violations wt w) 0 p

/-- The rows of the problem itself, by name. -/
theorem forall_mem_rows_iff {p : ℝ → Prop} :
    (∀ r ∈ d.localRows x bounds w ++
      sharedRows wt w.y w.mu w.lambda w.s w.z w.zet (d.violations wt w) 0, p r) ↔
      d.Rows x bounds wt w p := by
  unfold localRows
  rw [forall_mem_rows_append_iff, forall_mem_sharedRows_iff]
  exact ⟨fun ⟨h₁, h₂, h₃, h₄⟩ => ⟨h₁, h₂, h₃, h₄⟩, fun ⟨h₁, h₂, h₃, h₄⟩ => ⟨h₁, h₂, h₃, h₄⟩⟩

/-- A residual of the problem itself vanishes if its rows do. -/
lemma residualOf_norm_eq_zero_iff :
    (d.residualOf x bounds wt w).norm = 0 ↔ d.Rows x bounds wt w (· = 0) := by
  unfold residualOf
  rw [Residual.norm_ofRows_eq_zero_iff, forall_mem_rows_iff]

end Gradients

end MovingAsymptotes
