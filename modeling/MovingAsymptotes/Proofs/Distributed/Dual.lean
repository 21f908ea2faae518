import MovingAsymptotes.Proofs.Distributed.Barrier
import MovingAsymptotes.Proofs.Distributed.Residual
import MovingAsymptotes.Proofs.Dual.Newton

/-!
# The distributed dual method

The ranks know the minimiser of the Lagrangian in their own variables. The gradient and the Hessian of
the dual function are sums over the variables and so are known to all, and what follows from them is
done by every rank alike.

* `DualPoint.simulates_gradient`, `DualPoint.simulates_hessian`: the derivatives of the dual function.
* `dualMethod_followed`: the Newton steps.
* `Approximation.simulates_solveDual`: a solve.
-/

namespace MovingAsymptotes

/-- The part of the minimiser of a Lagrangian. -/
def DualPoint.part {α : Type} {n m k : Nat} (ι : Fin k → Fin n) (pt : DualPoint α n m) :
    DualPoint α k m where
  x := pick ι pt.x
  y := pt.y
  z := pt.z
  lagrangian := pt.lagrangian.part ι

/-- The part of a dual state. -/
def DualState.part {α : Type} {n m k : Nat} (ι : Fin k → Fin n) (s : DualState α n m) :
    DualState α k m where
  lambda := s.lambda
  eta := s.eta
  point := s.point.part ι
  gradient := s.gradient

section Pointwise

variable {α : Type} [Scalar α] {n m k : Nat} (ι : Fin k → Fin n)

lemma DualPoint.ofMultipliers_part (a : Approximation α n m) (w : Weights α m) (lambda : Vector α m) :
    ofMultipliers (a.part ι) w lambda = (ofMultipliers a w lambda).part ι := by
  have hl : (ofMultipliers (a.part ι) w lambda).lagrangian = (ofMultipliers a w lambda).lagrangian.part ι :=
    a.lagrangian_part ι lambda
  have hx : (ofMultipliers (a.part ι) w lambda).x = pick ι (ofMultipliers a w lambda).x := by
    refine vector_ext fun j => ?_
    unfold ofMultipliers unclamped
    simp only [entry_ofFn, entry_pick, Approximation.lagrangian_part]
    simp only [Lagrangian.part, Approximation.part, Asymptotes.part, MoveLimits.part, entry_pick]
  unfold DualPoint.part
  rw [← hx, ← hl]
  rfl

lemma DualPoint.inverseCurvature_part (a : Approximation α n m) (pt : DualPoint α n m) (j : Fin k) :
    (pt.part ι).inverseCurvature (a.part ι) j = pt.inverseCurvature a (ι j) := by
  have free : (pt.part ι).IsFree (a.part ι) j ↔ pt.IsFree a (ι j) := by
    unfold IsFree DualPoint.part Approximation.part MoveLimits.part
    simp only [entry_pick]
  unfold inverseCurvature
  simp only [free]
  simp only [DualPoint.part, Approximation.part, Asymptotes.above_part, Asymptotes.below_part,
    Lagrangian.part, entry_pick]

lemma DualState.toPoint_part (s : DualState α n m) (a : Approximation α n m) (w : Weights α m) :
    (s.part ι).toPoint (a.part ι) w = (s.toPoint a w).part ι := by
  have map : ∀ (f : α → α) (v : Vector α n), (pick ι v).map f = pick ι (v.map f) := by
    intro f v
    refine vector_ext fun j => ?_
    simp only [entry_map, entry_pick]
  unfold toPoint KktPoint.part
  simp only [DualState.part, DualPoint.part, Approximation.lagrangianGradient_part, map]

end Pointwise

variable {N R m : Nat} (δ : Distribution N R) {a : Approximation ℝ N m} {w : Weights ℝ m}

/-- Matrices that add up entry by entry add up as rows of entries. -/
lemma Mat.sum_entries {k l : Nat} {b : Mat ℝ k l} {b' : Fin (R + 1) → Mat ℝ k l}
    (h : ∀ (i : Fin k) (j : Fin l), b[i][j] = ∑ r, (b' r)[i][j]) (q : Fin (k * l)) :
    b.entries[q] = ∑ r, (b' r).entries[q] := by
  have hl : 0 < l := Nat.pos_of_ne_zero fun h => by
    subst h
    exact absurd q.isLt (by simp)
  let i : Fin k := ⟨q.val / l, (Nat.div_lt_iff_lt_mul hl).2 q.isLt⟩
  let j : Fin l := ⟨q.val % l, Nat.mod_lt _ hl⟩
  have entry : ∀ u : Mat ℝ k l, u.entries[q] = u[i][j] := fun u => Vector.getElem_flatten q.isLt
  simp only [entry]
  exact h i j

namespace DualPoint

lemma simulates_gradient (a : Approximation ℝ N m) (w : Weights ℝ m) (pt : DualPoint ℝ N m) :
    Program.Simulates (pt.gradient a w)
      (fun r => (pt.part (δ.place r)).gradient (a.part (δ.place r)) w) fun b c => ∀ r, c r = b := by
  refine (Program.simulates_sum (Approximation.sum_localSums δ a pt.x)).bind fun sums sums' _ hs => ?_
  refine Program.simulates_pure fun r => ?_
  rw [hs]
  rfl

lemma simulates_hessian (a : Approximation ℝ N m) (w : Weights ℝ m) (pt : DualPoint ℝ N m)
    (lambda : Vector ℝ m) : Program.Simulates (pt.hessian a w lambda)
      (fun r => (pt.part (δ.place r)).hessian (a.part (δ.place r)) w lambda) fun b c => ∀ r, c r = b := by
  have shares : ∀ i k : Fin m, (localHessian a pt)[i][k] =
      ∑ r, (localHessian (a.part (δ.place r)) (pt.part (δ.place r)))[i][k] := by
    intro i k
    simp only [entry_localHessian, Finset.sum_neg_distrib, inverseCurvature_part]
    rw [← δ.sum_place]
    have slopes : ∀ r i j, (a.part (δ.place r)).slopeAt (pt.part (δ.place r)).x i j =
        a.slopeAt pt.x i (δ.place r j) := fun r i j => a.slopeAt_part (δ.place r) pt.x i j
    simp only [slopes]
  refine (Program.simulates_sum (Mat.sum_entries shares)).bind fun sums sums' _ hs => ?_
  refine Program.simulates_pure fun r => ?_
  rw [hs]
  rfl

end DualPoint

lemma DualState.simulates_ofMultipliers (a : Approximation ℝ N m) (w : Weights ℝ m)
    (lambda eta : Vector ℝ m) : Program.Simulates (ofMultipliers a w lambda eta)
      (fun r => ofMultipliers (a.part (δ.place r)) w lambda eta)
      fun b c => ∀ r, c r = b.part (δ.place r) := by
  unfold ofMultipliers
  simp only [DualPoint.ofMultipliers_part]
  refine (DualPoint.simulates_gradient δ a w _).bind fun gradient gradient' _ hg => ?_
  refine Program.simulates_pure fun r => ?_
  rw [hg]
  rfl

/-- The ranks follow the dual method of a single rank. -/
theorem dualMethod_followed (ha : a.WellPosed) (hw : w.Valid) (s : Settings ℝ) :
    (dualMethod a w s).FollowedBy (fun r => dualMethod (a.part (δ.place r)) w s)
      (fun r state => state.part (δ.place r)) (DualState.Kept a w) where
  cap _ := rfl
  residual _ _ := Program.simulates_pure fun _ => rfl
  advance := by
    intro e state res hk
    unfold dualMethod DualState.advance
    refine (DualPoint.simulates_hessian δ a w state.point state.lambda).bind fun hess hess' hh hsame => ?_
    have hneg : ∀ v, hess.form v ≤ 0 := by
      have hr := DualPoint.hessian_returns (w := w) ha hw hk.interior.lambda_pos
      rw [← hk.interior.point] at hr
      exact hr.of_serial hh
    obtain ⟨⟨dlam, deta⟩, hd⟩ := DualState.exists_direction? hk.interior hneg e
    have hd' : ∀ r, (state.part (δ.place r)).direction? hess e = some (dlam, deta) := fun _ => hd
    simp only [hsame, hd, hd']
    refine (DualState.simulates_ofMultipliers δ a w _ _).bind fun next next' _ hn => ?_
    refine Program.simulates_pure fun r => ?_
    rw [hn]
    exact ⟨rfl, rfl, rfl⟩
  recorded hk := congrArg Outcome.done hk.residual.symm

namespace Approximation

/-- The solutions of the ranks are those of a solve of the dual that goes through some levels. -/
def DualCourse {size : Fin (R + 1) → Nat} (a : ∀ r, Approximation ℝ (size r) m) (w : Weights ℝ m)
    (s : Settings ℝ) (levels : List (BarrierMethod.Level fun r => DualState ℝ (size r) m))
    (sol : ∀ r, Solution ℝ (size r) m) : Prop :=
  ∃ start states,
    Program.Yield (fun r => DualState.ofMultipliers (a r) w (Vector.replicate m DualState.initialLambda)
      (Vector.replicate m 1)) start ∧
    BarrierMethod.Descends (fun r => dualMethod (a r) w s) s.dualMaxInner s.epsimin 1 start levels states ∧
    ∀ r, sol r = ⟨(states r).toPoint (a r) w, BarrierMethod.recordOf levels r⟩

/-- The ranks solve the subproblem through its dual as a single rank does. -/
theorem simulates_solveDual (ha : a.WellPosed) (hw : w.Valid) (s : Settings ℝ) (rounds : Nat) :
    Program.Simulates (a.solveDual w s (.single rounds))
      (fun r => (a.part (δ.place r)).solveDual w s { ranks := R + 1, rounds })
      fun sol c => (∃ seen : Fin (R + 1) → Option ℝ, ∀ r,
          c r = ⟨sol.point.part (δ.place r), sol.diagnostics.withSeen (seen r)⟩) ∧
        ∃ levels, DualCourse (fun r => a.part (δ.place r)) w s levels c := by
  unfold solveDual
  by_cases hm : m = 0
  · simp only [hm, if_true]
    exact Program.simulates_fail _
  simp only [hm, if_false]
  refine (DualState.simulates_ofMultipliers δ a w _ _).and_outcomes.bind fun start start' hstart hs => ?_
  obtain ⟨hs, houtcomes⟩ := hs
  obtain rfl := funext hs
  have hi := dualStart_returns.of_serial hstart
  refine ((dualMethod_followed δ ha hw s).simulates_solve (dualMethod_maintains ha hw s hi) rounds).bind
    fun out out' _ hout => ?_
  obtain ⟨⟨seen, hseen⟩, levels, hlevels, hrecord⟩ := hout
  refine Program.simulates_pure ⟨⟨seen, fun r => ?_⟩, levels, _, _, houtcomes, hlevels, fun r => ?_⟩
  · dsimp only
    rw [hseen, DualState.toPoint_part]
  · dsimp only
    rw [← hrecord r, hseen]

end Approximation

end MovingAsymptotes
