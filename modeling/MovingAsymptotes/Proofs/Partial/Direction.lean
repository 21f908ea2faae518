import MovingAsymptotes.Proofs.InteriorPoint.Solver
import MovingAsymptotes.Proofs.Partial.Approximation

/-!
# Newton directions over reals with an undefined value

At an interior point nothing that the linearised conditions divide by vanishes, so their blocks are numbers.
Whichever elimination is taken, it divides by diagonals that are positive and by pivots that have been
checked. So the direction consists of numbers, and the whole step does.

* `NewtonBlocks.ofPoint_lifted`: the blocks at an interior point.
* `Approximation.newtonDirection_defined`: the direction.
-/

namespace MovingAsymptotes

open PartialReal

variable {n m : Nat}

def KktPoint.lifted (w : KktPoint ℝ n m) : KktPoint PartialReal n m :=
  ⟨lift w.x, lift w.y, real w.z, lift w.lambda, lift w.xsi, lift w.eta, lift w.mu, real w.zet, lift w.s⟩

def CoreDirection.lifted (core : CoreDirection ℝ n m) : CoreDirection PartialReal n m :=
  ⟨lift core.dx, lift core.dlam, real core.dz⟩

def NewtonBlocks.lifted (k : NewtonBlocks ℝ n m) : NewtonBlocks PartialReal n m where
  gg := liftRows k.gg
  delx := lift k.delx
  diagx := lift k.diagx
  dely := lift k.dely
  diagy := lift k.diagy
  delz := real k.delz
  diagz := real k.diagz
  dellam := lift k.dellam
  diaglamyi := lift k.diaglamyi

lemma MoveLimits.roomBelow_lifted (l : MoveLimits ℝ n) (x : Vector ℝ n) (j : Fin n) :
    l.lifted.roomBelow (lift x) j = real (l.roomBelow x j) := by
  unfold roomBelow lifted
  rw [entry_lift, entry_lift, real_sub]

lemma MoveLimits.roomAbove_lifted (l : MoveLimits ℝ n) (x : Vector ℝ n) (j : Fin n) :
    l.lifted.roomAbove (lift x) j = real (l.roomAbove x j) := by
  unfold roomAbove lifted
  rw [entry_lift, entry_lift, real_sub]

section Quotients

variable {a : Approximation ℝ n m} {w : KktPoint ℝ n m} (hi : w.Interior a) (c : ℝ)
include hi

namespace KktPoint.Interior

lemma div_roomBelow (j : Fin n) :
    real c / real (a.limits.roomBelow w.x j) = real (c / a.limits.roomBelow w.x j) :=
  real_div (hi.roomBelow_pos j).ne'

lemma div_roomAbove (j : Fin n) :
    real c / real (a.limits.roomAbove w.x j) = real (c / a.limits.roomAbove w.x j) :=
  real_div (hi.roomAbove_pos j).ne'

lemma div_y (i : Fin m) : real c / real w.y[i] = real (c / w.y[i]) := real_div (hi.y_pos i).ne'

lemma div_z : real c / real w.z = real (c / w.z) := real_div hi.z_pos.ne'

lemma div_lambda (i : Fin m) : real c / real w.lambda[i] = real (c / w.lambda[i]) :=
  real_div (hi.lambda_pos i).ne'

end KktPoint.Interior

end Quotients

section Point

variable {a : Approximation ℝ n m} {wt : Weights ℝ m} {w : KktPoint ℝ n m} {epsi : ℝ}

/-- At an interior point the blocks are numbers. -/
theorem NewtonBlocks.ofPoint_lifted (ha : a.WellPosed) (hw : wt.Valid) (hi : w.Interior a)
    (sums : Vector ℝ m) :
    ofPoint a.lifted wt.lifted w.lifted (real epsi) (lift sums) = (ofPoint a wt w epsi sums).lifted := by
  have diagy : ∀ (c : ℝ) (i : Fin m), real c / real (wt.d[i] + w.mu[i] / w.y[i]) =
      real (c / (wt.d[i] + w.mu[i] / w.y[i])) := fun c i =>
    real_div (add_pos (hw.d_pos i) (div_pos (hi.mu_pos i) (hi.y_pos i))).ne'
  unfold ofPoint
  simp only [KktPoint.lifted, Weights.lifted, Approximation.limits_lifted, Approximation.lagrangian_lifted,
    Approximation.lagrangianGradient_lifted ha hi.contains,
    Approximation.lagrangianCurvature_lifted ha hi.contains, Approximation.slopeAt_lifted ha hi.contains,
    Approximation.b_lifted, MoveLimits.roomBelow_lifted, MoveLimits.roomAbove_lifted, entry_lift, entry_ofFn,
    dot_lift, hi.div_roomBelow, hi.div_roomAbove, hi.div_y, hi.div_z, hi.div_lambda, real_add, real_sub, real_mul,
    one_eq, ofFn_real, Mat.ofFn_real, diagy]
  rfl

end Point

namespace NewtonBlocks

variable {k : NewtonBlocks ℝ n m} (shares : Vector ℝ m) (hk : k.Positive)
include hk

lemma dellamyi_lifted (i : Fin m) : k.lifted.dellamyi i = real (k.dellamyi i) := by
  unfold dellamyi lifted
  rw [entry_lift, entry_lift, entry_lift, real_div (hk.diagy i).ne', real_add]

/-- The elimination of `x` and `y` leads to numbers. -/
lemma solveForMultipliers_defined :
    (k.lifted.solveForMultipliers (lift shares)).Defined fun core => ∃ core', core = CoreDirection.lifted core' := by
  unfold solveForMultipliers
  simp only [dellamyi_lifted hk]
  unfold lifted
  simp only [lift_inverse hk.diagx, lift_mul, Mat.mulVec_lift, Mat.congruence_lift, Mat.entries_lift]
  refine (Program.defined_reduceAll .sum _).bind fun moved hmoved => ?_
  obtain ⟨moved, rfl, -⟩ := hmoved
  refine (Program.defined_reduceAll .sum _).bind fun sums hsums => ?_
  obtain ⟨sums, rfl, -⟩ := hsums
  simp only [Mat.ofEntries_lift, entry_liftRows, entry_lift, real_add, real_sub, real_neg, ite_real, Mat.ofFn_real,
    ofFn_real, Mat.solveBordered?_lift]
  cases Mat.solveBordered? _ shares (-k.diagz) _ k.delz with
  | none => trivial
  | some found =>
    obtain ⟨dlam, dz⟩ := found
    refine ⟨⟨Vector.ofFn fun j => -((k.delx[j] + (k.gg.transpose.mulVec dlam)[j]) *
      (k.diagx.map fun d => 1 / d)[j]), dlam, dz⟩, ?_⟩
    simp only [Mat.transpose_lift, Mat.mulVec_lift, entry_lift, real_add, real_mul, real_neg, ofFn_real]
    rfl

/-- The elimination of the multipliers and `y` leads to numbers. -/
lemma solveForDesign_defined :
    (k.lifted.solveForDesign (lift shares)).Defined fun core => ∃ core', core = CoreDirection.lifted core' := by
  unfold solveForDesign
  simp only [dellamyi_lifted hk]
  unfold lifted
  simp only [lift_inverse hk.diaglamyi, lift_mul, lift_neg, Mat.transpose_lift, Mat.congruence_lift,
    Mat.mulVec_lift, dot_lift, entry_liftRows, entry_lift, real_add, real_sub, real_mul, real_neg, ite_real,
    Mat.ofFn_real, ofFn_real, Mat.solveBordered?_lift]
  generalize (k.diaglamyi.map fun d => 1 / d) = inverse
  generalize (Vector.ofFn fun i => k.dellamyi i * inverse[i]) = rhs
  generalize Mat.solveBordered? (α := ℝ) _ _ _ _ _ = found
  cases found with
  | none => trivial
  | some found =>
    obtain ⟨dx, dz⟩ := found
    refine ⟨⟨dx, Vector.ofFn fun i => (k.gg.mulVec dx)[i] * inverse[i] -
      (Vector.zipWith (· * ·) shares inverse)[i] * dz + rhs[i], dz⟩, ?_⟩
    simp only [Mat.mulVec_lift, entry_lift, real_add, real_sub, real_mul, ofFn_real]
    rfl

end NewtonBlocks

section Step

variable {a : Approximation ℝ n m} {wt : Weights ℝ m} {w : KktPoint ℝ n m}

/-- The back-substitution divides by nothing that vanishes at an interior point. -/
lemma NewtonBlocks.complete_lifted {k : NewtonBlocks ℝ n m} (hk : k.Positive) (hi : w.Interior a) (epsi : ℝ)
    (core : CoreDirection ℝ n m) :
    k.lifted.complete a.lifted w.lifted (real epsi) core.lifted = (k.complete a w epsi core).lifted := by
  have diagy := fun (c : ℝ) (i : Fin m) => real_div (a := c) (hk.diagy i).ne'
  unfold complete
  simp only [lifted, CoreDirection.lifted, KktPoint.lifted, Approximation.limits_lifted,
    MoveLimits.roomBelow_lifted, MoveLimits.roomAbove_lifted, entry_lift, hi.div_roomBelow, hi.div_roomAbove,
    hi.div_y, hi.div_z, hi.div_lambda, diagy, real_add, real_sub, real_mul, real_neg, ofFn_real]

/-- At an interior point the Newton direction consists of numbers. -/
theorem Approximation.newtonDirection_defined (ha : a.WellPosed) (hw : wt.Valid) (hi : w.Interior a)
    (e : Execution) (epsi : ℝ) :
    (a.lifted.newtonDirection wt.lifted e w.lifted (real epsi)).Defined fun dir =>
      ∃ dir', dir = KktPoint.lifted dir' := by
  unfold newtonDirection
  have sums : a.lifted.localSums w.lifted.x = lift (a.localSums w.x) := localSums_lifted ha hi.contains
  rw [sums]
  refine (Program.defined_reduceAll .sum _).bind fun sums hsums => ?_
  obtain ⟨sums, rfl, -⟩ := hsums
  have hk := NewtonBlocks.ofPoint_positive ha.convex hw.d_pos hi epsi sums
  dsimp only
  rw [NewtonBlocks.ofPoint_lifted ha hw hi]
  have finish : ∀ core, (∃ core', core = CoreDirection.lifted core') →
      (Program.pure ((NewtonBlocks.ofPoint a wt w epsi sums).lifted.complete a.lifted w.lifted (real epsi) core) :
        Program PartialReal (Cause PartialReal) _).Defined fun dir => ∃ dir', dir = KktPoint.lifted dir' := by
    rintro _ ⟨core, rfl⟩
    exact ⟨_, NewtonBlocks.complete_lifted hk hi epsi core⟩
  split
  · exact (NewtonBlocks.solveForMultipliers_defined wt.a hk).bind finish
  · exact (NewtonBlocks.solveForDesign_defined wt.a hk).bind finish

end Step

end MovingAsymptotes
