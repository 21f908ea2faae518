import Mathlib
import MovingAsymptotes.InteriorPoint.Solver
import MovingAsymptotes.Proofs.Barrier
import MovingAsymptotes.Proofs.InteriorPoint.Direction

/-!
# The interior-point method over the reals

A step starts at an interior point and ends at one. The longest trial step is held back by the largest
overshoot of a signed variable, and every other trial step is shorter. Nothing that a step divides by is
zero.

* `KktPoint.Interior.stepped`: a step within the bound leads to an interior point.
* `Approximation.interiorStep_returns`: a Newton step with its line search leads to an interior point.
* `Approximation.interiorMethod_maintains`: a solve comes through interior points only.
-/

namespace MovingAsymptotes

variable {n m : Nat} {a : Approximation ℝ n m} {wt : Weights ℝ m} {w dir : KktPoint ℝ n m} {epsi : ℝ}

namespace Approximation

section Bound

/-- The bound on the inverse of a step: at least one, and no overshoot exceeds it. -/
structure BoundsStep (a : Approximation ℝ n m) (w dir : KktPoint ℝ n m) (inverse : ℝ) : Prop where
  one_le : 1 ≤ inverse
  own : ∀ q ∈ a.localOvershoots w dir, q ≤ inverse
  shared : ∀ q ∈ sharedOvershoots w dir, q ≤ inverse

lemma BoundsStep.pos {inverse : ℝ} (h : a.BoundsStep w dir inverse) : 0 < inverse :=
  one_pos.trans_le h.one_le

lemma inverseStep_returns : (a.inverseStep w dir).Returns (a.BoundsStep w dir) := by
  unfold inverseStep
  refine (Program.returns_reduceScalar _ _).bind ?_
  rintro _ rfl
  obtain ⟨hs, hshared⟩ := (foldl_larger_le_iff (sharedOvershoots w dir)).1 (le_refl _)
  obtain ⟨hone, hown⟩ := (foldl_larger_le_iff (a.localOvershoots w dir)).1 hs
  exact Program.returns_pure ⟨hone, hown, hshared⟩

/-- A positive value stays positive under a step that is bounded by its overshoot. -/
lemma pos_of_overshoot_le {v dv inverse t : ℝ} (hv : 0 < v) (h : overshoot v dv ≤ inverse) (ht : 0 < t)
    (hle : t * inverse ≤ 1) : 0 < v + dv * t := by
  have hm : -1.01 * dv ≤ inverse * v := by
    rwa [overshoot, div_le_iff₀ hv] at h
  have hb := mul_le_mul_of_nonneg_left hm ht.le
  have hc : t * (inverse * v) ≤ v := by
    rw [← mul_assoc]
    exact mul_le_of_le_one_left hv.le hle
  rcases le_or_gt 0 dv with hd | hd
  · exact add_pos_of_pos_of_nonneg hv (mul_nonneg hd ht.le)
  · linarith

end Bound

end Approximation

/-- A step within the bound leads from an interior point to an interior point. -/
theorem KktPoint.Interior.stepped (hi : w.Interior a) {inverse t : ℝ} (hb : a.BoundsStep w dir inverse)
    (ht : 0 < t) (hle : t * inverse ≤ 1) : (w.stepped dir t).Interior a := by
  have keep : ∀ {v dv : ℝ}, 0 < v → Approximation.overshoot v dv ≤ inverse → 0 < v + dv * t :=
    fun hv h => Approximation.pos_of_overshoot_le hv h ht hle
  have own := hb.own
  have shared := hb.shared
  unfold Approximation.localOvershoots at own
  unfold Approximation.sharedOvershoots at shared
  simp only [forall_mem_flatMap_finRange, List.forall_mem_append, List.forall_mem_cons, List.not_mem_nil,
    IsEmpty.forall_iff, implies_true, and_true, forall_and] at own shared
  obtain ⟨hxsi, heta, hbelow, habove⟩ := own
  obtain ⟨⟨hz, hzet⟩, hy, hlambda, hmu, hs⟩ := shared
  unfold KktPoint.stepped KktPoint.along
  constructor
  case z_pos => exact keep hi.z_pos hz
  case zet_pos => exact keep hi.zet_pos hzet
  all_goals intro j; dsimp only; rw [entry_zipWith]
  case alfa_lt =>
    have := keep (hi.roomBelow_pos j) (hbelow j)
    unfold MoveLimits.roomBelow at this
    linarith
  case lt_beta =>
    have := keep (hi.roomAbove_pos j) (habove j)
    unfold MoveLimits.roomAbove at this
    linarith
  case y_pos => exact keep (hi.y_pos j) (hy j)
  case lambda_pos => exact keep (hi.lambda_pos j) (hlambda j)
  case xsi_pos => exact keep (hi.xsi_pos j) (hxsi j)
  case eta_pos => exact keep (hi.eta_pos j) (heta j)
  case mu_pos => exact keep (hi.mu_pos j) (hmu j)
  case s_pos => exact keep (hi.s_pos j) (hs j)

/-- Halved any number of times, the longest step leads from an interior point to an interior point. -/
lemma KktPoint.Interior.halved (hi : w.Interior a) {inverse : ℝ} (hb : a.BoundsStep w dir inverse) (k : Nat) :
    (w.stepped dir (1 / inverse * 0.5 ^ k)).Interior a := by
  refine hi.stepped hb (mul_pos (one_div_pos.2 hb.pos) (pow_pos (by norm_num) k)) ?_
  rw [mul_right_comm, one_div_mul_cancel hb.pos.ne', one_mul]
  exact pow_le_one₀ (by norm_num) (by norm_num)

namespace Approximation

/-- A trial step comes with the residual at the point it reaches. -/
lemma trial_returns (t : ℝ) : (a.trial wt w dir epsi t).Returns
    (· = (w.stepped dir t, a.residualOf wt (w.stepped dir t) epsi)) := by
  refine (Program.returns_eq_iff.2 (a.residual_serial wt (w.stepped dir t) epsi)).bind ?_
  rintro _ rfl
  exact Program.returns_pure rfl

lemma backtrack_returns (norm : ℝ) (more : Nat) {step : ℝ} (hs : 0 < step) :
    (a.backtrack wt w dir epsi norm more step).Returns fun next =>
      ∃ t, 0 < t ∧ t ≤ step ∧ next = (w.stepped dir t, a.residualOf wt (w.stepped dir t) epsi) := by
  induction more generalizing step with
  | zero => exact (trial_returns step).mono fun next hn => ⟨step, hs, le_refl step, hn⟩
  | succ more ih =>
    unfold backtrack
    refine (trial_returns step).bind ?_
    rintro _ rfl
    dsimp only
    split
    · exact Program.returns_pure ⟨step, hs, le_refl step, rfl⟩
    · refine (ih (show 0 < step * 0.5 by linarith)).mono ?_
      rintro next ⟨t, ht, hle, hn⟩
      exact ⟨t, ht, by linarith, hn⟩

/-- A Newton step with its line search leads from an interior point to an interior point. -/
theorem interiorStep_returns (ha : a.WellPosed) (hw : wt.Valid) (hi : w.Interior a) (s : Settings ℝ)
    (e : Execution) (residual : Residual ℝ) (epsi : ℝ) :
    (a.interiorStep wt s e w residual epsi).Returns fun next =>
      next.state.Interior a ∧ next.residual = a.residualOf wt next.state epsi := by
  unfold interiorStep
  refine (newtonDirection_returns ha.convex hw.d_pos hi e epsi).bind fun dir _ => ?_
  refine inverseStep_returns.bind fun inverse hb => ?_
  refine (backtrack_returns residual.norm _ (one_div_pos.2 hb.pos)).bind ?_
  rintro _ ⟨t, ht, hle, rfl⟩
  have hone : t * inverse ≤ 1 := (le_div_iff₀ hb.pos).1 hle
  exact Program.returns_pure ⟨hi.stepped hb ht hone, rfl⟩

lemma interiorStart_interior (ha : a.WellPosed) : (a.interiorStart wt).Interior a := by
  have half : ∀ j : Fin n, a.limits.alfa[j] < (a.limits.alfa[j] + a.limits.beta[j]) * 0.5 ∧
      (a.limits.alfa[j] + a.limits.beta[j]) * 0.5 < a.limits.beta[j] := by
    intro j
    have := ha.alfa_lt_beta j
    constructor <;> linarith
  unfold interiorStart
  constructor
  case z_pos => exact one_pos
  case zet_pos => exact one_pos
  all_goals
    intro j
    simp only [entry_zipWith, entry_replicate, entry_ofFn, entry_map, larger_eq_max]
  case alfa_lt => exact (half j).1
  case lt_beta => exact (half j).2
  case y_pos => exact one_pos
  case lambda_pos => exact one_pos
  case xsi_pos => exact lt_max_of_lt_right one_pos
  case eta_pos => exact lt_max_of_lt_right one_pos
  case mu_pos => exact lt_max_of_lt_right one_pos
  case s_pos => exact one_pos

end Approximation

/-- What an interior-point solve keeps: a point that is interior, and the residual that belongs to it.
-/
structure KktPoint.Kept (a : Approximation ℝ n m) (wt : Weights ℝ m) (e : ℝ) (w : KktPoint ℝ n m)
    (r : Residual ℝ) : Prop where
  parameter_pos : 0 < e
  interior : w.Interior a
  residual : r = a.residualOf wt w e

namespace Approximation

/-- A solve comes through interior points only. -/
theorem interiorMethod_maintains (ha : a.WellPosed) (hw : wt.Valid) (s : Settings ℝ) (e : Execution) :
    (a.interiorMethod wt s e).Maintains s.epsimin (a.interiorStart wt) (KktPoint.Kept a wt) where
  enter := (Program.returns_eq_iff.2 (a.residual_serial wt _ 1)).mono
    fun _ hr => ⟨one_pos, interiorStart_interior ha, hr⟩
  step hk _ := (interiorStep_returns ha hw hk.interior s e _ _).mono
    fun _ hn => ⟨hk.parameter_pos, hn.1, hn.2⟩
  descend hk _ := (Program.returns_eq_iff.2 (a.residual_serial wt _ _)).mono
    fun _ hr => ⟨by linarith [hk.parameter_pos], hk.interior, hr⟩

/-- A solve ends once it may take enough rounds. -/
theorem solveInterior_ends (ha : a.WellPosed) (hw : wt.Valid) (hm : m ≠ 0) {s : Settings ℝ}
    (hs : s.Valid) {k : Nat} (hk : s.Allows k) :
    ∃ (w : KktPoint ℝ n m) (d : Diagnostics ℝ) (e : ℝ) (r : Residual ℝ),
      (∀ rounds, k ≤ rounds → (a.solveInterior wt s (.single rounds)).serial = .done ⟨w, d⟩) ∧
      BarrierMethod.Ended s.epsimin (KktPoint.Kept a wt) 1 .initial w d e r := by
  obtain ⟨w, d, e, r, hd, hE⟩ :=
    (interiorMethod_maintains ha hw s (.single 0)).solve_ends hs.epsimin_lt_one hk.barrier
  refine ⟨w, d, e, r, fun rounds hr => ?_, hE⟩
  unfold solveInterior
  rw [if_neg hm, Program.serial_bind]
  -- The number of rounds plays no part in a Newton step
  change Outcome.andThen (((a.interiorMethod wt s (.single 0)).solve s.epsimin rounds
    (a.interiorStart wt)).serial) _ = _
  rw [hd rounds hr]
  rfl

end Approximation

/-- Everything that the method divides by at a point is different from zero. -/
structure KktPoint.Divisible (a : Approximation ℝ n m) (wt : Weights ℝ m) (epsi : ℝ) (w : KktPoint ℝ n m) :
    Prop where
  above : ∀ j : Fin n, a.asymptotes.above w.x j ≠ 0
  below : ∀ j : Fin n, a.asymptotes.below w.x j ≠ 0
  roomBelow : ∀ j : Fin n, a.limits.roomBelow w.x j ≠ 0
  roomAbove : ∀ j : Fin n, a.limits.roomAbove w.x j ≠ 0
  y : ∀ i : Fin m, w.y[i] ≠ 0
  z : w.z ≠ 0
  lambda : ∀ i : Fin m, w.lambda[i] ≠ 0
  xsi : ∀ j : Fin n, w.xsi[j] ≠ 0
  eta : ∀ j : Fin n, w.eta[j] ≠ 0
  mu : ∀ i : Fin m, w.mu[i] ≠ 0
  zet : w.zet ≠ 0
  s : ∀ i : Fin m, w.s[i] ≠ 0
  diagx : ∀ j : Fin n, (NewtonBlocks.ofPoint a wt w epsi (a.localSums w.x)).diagx[j] ≠ 0
  diagy : ∀ i : Fin m, (NewtonBlocks.ofPoint a wt w epsi (a.localSums w.x)).diagy[i] ≠ 0
  diaglamyi : ∀ i : Fin m, (NewtonBlocks.ofPoint a wt w epsi (a.localSums w.x)).diaglamyi[i] ≠ 0

lemma KktPoint.Interior.divisible (ha : a.WellPosed) (hw : wt.Valid) (hi : w.Interior a) (epsi : ℝ) :
    w.Divisible a wt epsi := by
  have hk := NewtonBlocks.ofPoint_positive ha.convex hw.d_pos hi epsi (a.localSums w.x)
  exact
    { above := fun j => (ha.above_pos hi.contains j).ne'
      below := fun j => (ha.below_pos hi.contains j).ne'
      roomBelow := fun j => (hi.roomBelow_pos j).ne'
      roomAbove := fun j => (hi.roomAbove_pos j).ne'
      y := fun i => (hi.y_pos i).ne'
      z := hi.z_pos.ne'
      lambda := fun i => (hi.lambda_pos i).ne'
      xsi := fun j => (hi.xsi_pos j).ne'
      eta := fun j => (hi.eta_pos j).ne'
      mu := fun i => (hi.mu_pos i).ne'
      zet := hi.zet_pos.ne'
      s := fun i => (hi.s_pos i).ne'
      diagx := fun j => (hk.diagx j).ne'
      diagy := fun i => (hk.diagy i).ne'
      diaglamyi := fun i => (hk.diaglamyi i).ne' }

end MovingAsymptotes
