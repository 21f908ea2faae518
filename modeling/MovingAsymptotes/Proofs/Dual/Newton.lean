import Mathlib
import MovingAsymptotes.Dual.Newton
import MovingAsymptotes.Proofs.Barrier
import MovingAsymptotes.Proofs.Dual.Point

/-!
# Newton's method on the dual over the reals

A step starts with positive multipliers and ends with positive multipliers. The Hessian of the dual
function is negative semidefinite and the damping pushes it away from zero, so the Newton system is
regular; and the step length stops short of the first multiplier that would vanish. Nothing that a step
divides by is zero.

* `DualState.Interior`: positive multipliers, with the minimiser and the gradient that belong to them.
* `DualState.system_regular`: the Newton system is regular.
* `DualState.le_stepLength_iff`: what bounds a step.
* `DualState.stepLength_keeps`: a step keeps the multipliers positive.
* `dualMethod_maintains`: a solve comes through such states only.
-/

namespace MovingAsymptotes

variable {n m : Nat}

namespace DualState

/-- Positive multipliers with the minimiser and the gradient that belong to them. -/
structure Interior (a : Approximation ℝ n m) (w : Weights ℝ m) (s : DualState ℝ n m) : Prop where
  lambda_pos : ∀ i : Fin m, 0 < s.lambda[i]
  eta_pos : ∀ i : Fin m, 0 < s.eta[i]
  point : s.point = .ofMultipliers a w s.lambda
  gradient : ∀ i : Fin m,
    s.gradient[i] = (a.localSums s.point.x)[i] - (a.b[i] + w.a[i] * s.point.z + s.point.y[i])

variable {a : Approximation ℝ n m} {w : Weights ℝ m} {s : DualState ℝ n m}

lemma ofMultipliers_returns {lambda eta : Vector ℝ m} (hl : ∀ i : Fin m, 0 < lambda[i])
    (he : ∀ i : Fin m, 0 < eta[i]) : (ofMultipliers a w lambda eta).Returns (Interior a w) := by
  refine (DualPoint.gradient_returns (DualPoint.ofMultipliers a w lambda)).bind fun gradient hg => ?_
  exact Program.returns_pure ⟨hl, he, rfl, hg⟩

section System

lemma damping_neg (hess : Mat ℝ m m) : damping hess < 0 := by
  unfold damping
  rw [smaller_eq_min]
  exact (min_le_right _ _).trans_lt (by norm_num)

/-- The Newton system differs from the Hessian in the diagonal. -/
lemma entry_system (s : DualState ℝ n m) (hess : Mat ℝ m m) (i k : Fin m) :
    (s.system hess)[i][k] =
      hess[i][k] + if i = k then -(s.eta[i] / s.lambda[i]) + damping hess else 0 := by
  unfold system
  rw [Mat.getElem_ofFn]
  by_cases hik : i = k
  · rw [if_pos hik, if_pos hik]
    ring
  · rw [if_neg hik, if_neg hik, add_zero]

lemma system_diagonal_neg (hs : s.Interior a w) (hess : Mat ℝ m m) (i : Fin m) :
    -(s.eta[i] / s.lambda[i]) + damping hess < 0 :=
  add_neg_of_nonpos_of_neg (neg_nonpos.2 (div_pos (hs.eta_pos i) (hs.lambda_pos i)).le) (damping_neg hess)

/-- The Newton system has only one solution: what is added to the diagonal of the Hessian is negative.
-/
theorem system_regular (hs : s.Interior a w) {hess : Mat ℝ m m} (hh : ∀ v, hess.form v ≤ 0) :
    (s.system hess).Regular := by
  let t : Fin m → ℝ := fun i => -(s.eta[i] / s.lambda[i]) + damping hess
  have ht : ∀ i, t i < 0 := system_diagonal_neg hs hess
  have entries : ∀ i k : Fin m, (s.system hess)[i][k] = hess[i][k] + if i = k then t i else 0 :=
    s.entry_system hess
  refine Mat.regular_of_form fun v hv => ?_
  rw [Mat.form_add_diagonal entries] at hv
  have terms : ∀ i ∈ Finset.univ, t i * v i ^ 2 ≤ 0 := fun i _ =>
    mul_nonpos_of_nonpos_of_nonneg (ht i).le (sq_nonneg _)
  -- Neither part of the form is positive, so each of them vanishes where the form does.
  have hz : ∑ i : Fin m, t i * v i ^ 2 = 0 :=
    le_antisymm (Finset.sum_nonpos terms) (by linarith [hh v])
  funext i
  have hi := (Finset.sum_eq_zero_iff_of_nonpos terms).1 hz i (Finset.mem_univ i)
  exact pow_eq_zero_iff two_ne_zero |>.1 ((mul_eq_zero.1 hi).resolve_left (ht i).ne)

/-- A Newton step always has a direction. -/
lemma exists_direction? (hs : s.Interior a w) {hess : Mat ℝ m m} (hh : ∀ v, hess.form v ≤ 0)
    (epsi : ℝ) : ∃ dir, s.direction? hess epsi = some dir := by
  obtain ⟨dlam, hd, -⟩ := (system_regular hs hh).exists_solve? (s.rhs epsi)
  unfold direction?
  rw [hd]
  exact ⟨_, rfl⟩

end System

section StepLength

variable {theta v dv : ℝ}

/-- A component of the direction that is zero does not bind. -/
lemma shorten_zero (theta v : ℝ) : shorten theta v 0 = theta := by
  unfold shorten
  rw [if_pos (agrees_iff.2 rfl)]

/-- The ratio of a component that binds: the multiplier falls, and a hundredth of it is left. -/
lemma ratio_binds (hv : 0 < v) (hd : dv ≠ 0) (hr : 0 ≤ -0.99 * v / dv) : dv < 0 ∧ 0 < -0.99 * v / dv := by
  have hn : -0.99 * v < 0 := by linarith
  have hlt : dv < 0 := by
    by_contra h
    exact (div_neg_of_neg_of_pos hn (lt_of_le_of_ne (not_lt.1 h) hd.symm)).not_ge hr
  exact ⟨hlt, div_pos_of_neg_of_neg hn hlt⟩

/-- Of a shortened step, only a multiplier that falls bounds the length. -/
lemma le_shorten_iff (hv : 0 < v) {t : ℝ} :
    t ≤ shorten theta v dv ↔ t ≤ theta ∧ (dv < 0 → t ≤ -0.99 * v / dv) := by
  unfold shorten
  split
  · next hd =>
    have hn : ¬ dv < 0 := (agrees_iff.1 hd).not_lt
    exact ⟨fun h => ⟨h, fun hlt => absurd hlt hn⟩, fun h => h.1⟩
  · next hd =>
    have hd : dv ≠ 0 := fun h => hd (agrees_iff.2 h)
    dsimp only
    split
    · next hr =>
      rw [smaller_eq_min, le_min_iff]
      exact and_congr_right' ⟨fun h _ => h, fun h => h (ratio_binds hv hd hr).1⟩
    · next hr =>
      have hn : ¬ dv < 0 := fun hlt => hr (div_pos_of_neg_of_neg (by linarith) hlt).le
      exact ⟨fun h => ⟨h, fun hlt => absurd hlt hn⟩, fun h => h.1⟩

lemma shorten_pos (dv : ℝ) (ht : 0 < theta) (hv : 0 < v) : 0 < shorten theta v dv := by
  unfold shorten
  split
  · exact ht
  · next hd =>
    dsimp only
    split
    · next hr =>
      rw [smaller_eq_min]
      exact lt_min ht (ratio_binds hv (fun h => hd (agrees_iff.2 h)) hr).2
    · exact ht

/-- A multiplier stays positive under a step that it does not bound, or that is within its bound. -/
lemma pos_of_le_ratio (hv : 0 < v) {t : ℝ} (ht : 0 < t) (hle : dv < 0 → t ≤ -0.99 * v / dv) :
    0 < v + dv * t := by
  rcases lt_or_ge dv 0 with hlt | hge
  · have hm : dv * (-0.99 * v / dv) ≤ dv * t := mul_le_mul_of_nonpos_left (hle hlt) hlt.le
    rw [mul_div_cancel₀ _ hlt.ne] at hm
    linarith
  · exact add_pos_of_pos_of_nonneg hv (mul_nonneg hge ht.le)

lemma le_foldl_shorten_iff {l : List (ℝ × ℝ)} (hl : ∀ q ∈ l, 0 < q.1) {t : ℝ} :
    t ≤ l.foldl (fun theta (v, dv) => shorten theta v dv) theta ↔
      t ≤ theta ∧ ∀ q ∈ l, q.2 < 0 → t ≤ -0.99 * q.1 / q.2 := by
  induction l generalizing theta with
  | nil => simp
  | cons q l ih =>
    obtain ⟨hq, hl⟩ := List.forall_mem_cons.1 hl
    rw [List.foldl_cons, ih hl, le_shorten_iff hq, List.forall_mem_cons, and_assoc]

lemma foldl_shorten_pos {l : List (ℝ × ℝ)} (hl : ∀ q ∈ l, 0 < q.1) (ht : 0 < theta) :
    0 < l.foldl (fun theta (v, dv) => shorten theta v dv) theta := by
  induction l generalizing theta with
  | nil => exact ht
  | cons q l ih =>
    obtain ⟨hq, hl⟩ := List.forall_mem_cons.1 hl
    exact ih hl (shorten_pos q.2 ht hq)

lemma forall_mem_zip {k : Nat} {u v : Vector ℝ k} {p : ℝ × ℝ → Prop} :
    (∀ q ∈ (u.zip v).toList, p q) ↔ ∀ i : Fin k, p (u[i], v[i]) := by
  rw [forall_mem_toList]
  exact forall_congr' fun i => by rw [show (u.zip v)[i] = (u[i], v[i]) from Vector.getElem_zip]

variable (hl : ∀ i : Fin m, 0 < s.lambda[i]) (he : ∀ i : Fin m, 0 < s.eta[i])
include hl he

lemma forall_mem_multipliers_pos (dlam deta : Vector ℝ m) :
    ∀ q ∈ (s.lambda.zip dlam).toList ++ (s.eta.zip deta).toList, 0 < q.1 := by
  rw [List.forall_mem_append, forall_mem_zip, forall_mem_zip]
  exact ⟨hl, he⟩

/-- A step is at most one, and of each multiplier that falls it leaves at least a hundredth; nothing else
bounds it. -/
theorem le_stepLength_iff {dlam deta : Vector ℝ m} {t : ℝ} :
    t ≤ s.stepLength dlam deta ↔ t ≤ 1 ∧
      (∀ i : Fin m, dlam[i] < 0 → t ≤ -0.99 * s.lambda[i] / dlam[i]) ∧
      ∀ i : Fin m, deta[i] < 0 → t ≤ -0.99 * s.eta[i] / deta[i] := by
  unfold stepLength
  rw [le_foldl_shorten_iff (forall_mem_multipliers_pos hl he dlam deta), List.forall_mem_append,
    forall_mem_zip, forall_mem_zip]

lemma stepLength_pos (dlam deta : Vector ℝ m) : 0 < s.stepLength dlam deta :=
  foldl_shorten_pos (forall_mem_multipliers_pos hl he dlam deta) one_pos

/-- A step keeps the multipliers positive. -/
theorem stepLength_keeps (dlam deta : Vector ℝ m) :
    (∀ i : Fin m, 0 < (KktPoint.along s.lambda dlam (s.stepLength dlam deta))[i]) ∧
      ∀ i : Fin m, 0 < (KktPoint.along s.eta deta (s.stepLength dlam deta))[i] := by
  have ht := stepLength_pos hl he dlam deta
  obtain ⟨-, hlam, heta⟩ := (le_stepLength_iff hl he).1 (le_refl (s.stepLength dlam deta))
  unfold KktPoint.along
  simp only [entry_zipWith]
  exact ⟨fun i => pos_of_le_ratio (hl i) ht (hlam i), fun i => pos_of_le_ratio (he i) ht (heta i)⟩

end StepLength

/-- A Newton step leads from positive multipliers to positive multipliers. -/
theorem advance_returns (ha : a.WellPosed) (hw : w.Valid) (hs : s.Interior a w) (epsi : ℝ) :
    (s.advance a w epsi).Returns fun next =>
      next.state.Interior a w ∧ next.residual = next.state.residual epsi := by
  have hess := DualPoint.hessian_returns (w := w) ha hw hs.lambda_pos
  rw [← hs.point] at hess
  refine hess.bind fun hess hh => ?_
  obtain ⟨⟨dlam, deta⟩, hd⟩ := exists_direction? hs hh epsi
  simp only [hd]
  obtain ⟨hl, he⟩ := stepLength_keeps hs.lambda_pos hs.eta_pos dlam deta
  exact (ofMultipliers_returns hl he).bind fun next hn => Program.returns_pure ⟨hn, rfl⟩

/-- Everything that the method divides by at a state is different from zero. -/
structure Divisible (a : Approximation ℝ n m) (s : DualState ℝ n m) : Prop where
  above : ∀ j : Fin n, a.asymptotes.above s.point.x j ≠ 0
  below : ∀ j : Fin n, a.asymptotes.below s.point.x j ≠ 0
  /-- The divisor of the minimiser between the asymptotes. -/
  roots : ∀ j : Fin n, √(s.point.lagrangian.plam[j]) + √(s.point.lagrangian.qlam[j]) ≠ 0
  /-- The curvature of the Lagrangian, for free variables and all others. -/
  curvature : ∀ j : Fin n, s.point.curvature a j ≠ 0
  lambda : ∀ i : Fin m, s.lambda[i] ≠ 0

lemma Interior.contains (ha : a.WellPosed) (hs : s.Interior a w) : a.limits.Contains s.point.x := by
  rw [hs.point]
  exact DualPoint.ofMultipliers_contains ha

lemma Interior.divisible (ha : a.WellPosed) (hs : s.Interior a w) : s.Divisible a where
  above j := (ha.above_pos (hs.contains ha) j).ne'
  below j := (ha.below_pos (hs.contains ha) j).ne'
  roots j := by
    rw [hs.point]
    exact (add_pos (Real.sqrt_pos.2 (ha.plam_pos (fun i => (hs.lambda_pos i).le) j))
      (Real.sqrt_pos.2 (ha.qlam_pos (fun i => (hs.lambda_pos i).le) j))).ne'
  curvature j := by
    rw [hs.point]
    exact (DualPoint.curvature_pos ha hs.lambda_pos j).ne'
  lambda i := (hs.lambda_pos i).ne'

end DualState

/-- What a solve of the dual keeps: multipliers that are positive, and the residual that belongs to
them. -/
structure DualState.Kept (a : Approximation ℝ n m) (w : Weights ℝ m) (e : ℝ) (s : DualState ℝ n m)
    (r : Residual ℝ) : Prop where
  parameter_pos : 0 < e
  interior : s.Interior a w
  residual : r = s.residual e

variable {a : Approximation ℝ n m} {w : Weights ℝ m}

lemma dualStart_pos : (∀ i : Fin m, 0 < (Vector.replicate m (DualState.initialLambda : ℝ))[i]) ∧
    ∀ i : Fin m, 0 < (Vector.replicate m (1 : ℝ))[i] := by
  constructor <;> intro i <;> rw [entry_replicate]
  · unfold DualState.initialLambda
    norm_num
  · exact one_pos

lemma dualStart_returns : (DualState.ofMultipliers a w (Vector.replicate m DualState.initialLambda)
    (Vector.replicate m 1)).Returns (DualState.Interior a w) :=
  DualState.ofMultipliers_returns dualStart_pos.1 dualStart_pos.2

/-- A solve of the dual comes through positive multipliers only. -/
theorem dualMethod_maintains (ha : a.WellPosed) (hw : w.Valid) (s : Settings ℝ) {start : DualState ℝ n m}
    (hs : start.Interior a w) :
    (dualMethod a w s).Maintains s.epsimin start (DualState.Kept a w) where
  enter := Program.returns_pure ⟨one_pos, hs, rfl⟩
  step hk _ := (DualState.advance_returns ha hw hk.interior _).mono
    fun _ hn => ⟨hk.parameter_pos, hn.1, hn.2⟩
  descend hk _ := Program.returns_pure ⟨by linarith [hk.parameter_pos], hk.interior, rfl⟩

/-- A solve of the dual ends once it may take enough rounds, with the point of the last multipliers. -/
theorem Approximation.solveDual_ends (ha : a.WellPosed) (hw : w.Valid) (hm : m ≠ 0) {s : Settings ℝ}
    (hs : s.Valid) {k : Nat} (hk : s.Allows k) :
    ∃ (state : DualState ℝ n m) (d : Diagnostics ℝ) (e : ℝ) (r : Residual ℝ),
      (∀ rounds, k ≤ rounds →
        (a.solveDual w s (.single rounds)).serial = .done ⟨state.toPoint a w, d⟩) ∧
      BarrierMethod.Ended s.epsimin (DualState.Kept a w) 1 .initial state d e r := by
  obtain ⟨start, hstart, hi⟩ := dualStart_returns (a := a) (w := w)
  obtain ⟨state, d, epsi, r, hd, hE⟩ :=
    (dualMethod_maintains ha hw s hi).solve_ends hs.epsimin_lt_one hk.barrier
  refine ⟨state, d, epsi, r, fun rounds hr => ?_, hE⟩
  unfold solveDual
  rw [if_neg hm, Program.serial_bind, hstart]
  change ((dualMethod a w s).solve s.epsimin rounds start >>= _).serial = _
  rw [Program.serial_bind, hd rounds hr]
  rfl

end MovingAsymptotes
