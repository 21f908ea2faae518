import Mathlib
import MovingAsymptotes.OptimalityCriteria
import MovingAsymptotes.Proofs.Distributed.Part
import MovingAsymptotes.Proofs.Reduction.Distribution

/-!
# Distributed optimality criteria

Each rank finds the candidate for a multiplier in its own variables. The violation of the linearised
constraint is a sum over all variables, so the ranks halve the bracket alike.

* `CriteriaProblem.simulates_step`: the update with a single constraint.
-/

namespace MovingAsymptotes

section Pointwise

variable {α : Type} {n k : Nat} (ι : Fin k → Fin n)

/-- The part of a problem with a single constraint. -/
def CriteriaProblem.part (p : CriteriaProblem α n) : CriteriaProblem α k where
  x := pick ι p.x
  bounds := p.bounds.part ι
  dfdx := pick ι p.dfdx
  g := p.g
  dgdx := pick ι p.dgdx

/-- The part of the result of an update. -/
def CriteriaStep.part (step : CriteriaStep α n) : CriteriaStep α k :=
  { step with x := pick ι step.x, limits := step.limits.part ι }

/-- The part of a bracket. -/
def Bracket.part (b : Bracket α n) : Bracket α k := { b with x := pick ι b.x }

variable [Scalar α]

namespace CriteriaProblem

lemma window_part (p : CriteriaProblem α n) (s : CriteriaSettings α) :
    (p.part ι).window s = (p.window s).part ι := by
  have range : ∀ j, (p.part ι).bounds.range j = p.bounds.range (ι j) := p.bounds.range_part ι
  unfold window MoveLimits.part
  congr 1 <;> refine vector_ext fun j => ?_ <;>
    simp only [entry_ofFn, entry_pick, range] <;>
    simp only [CriteriaProblem.part, Bounds.part, entry_pick]

lemma candidate_part (p : CriteriaProblem α n) (s : CriteriaSettings α) (limits : MoveLimits α n)
    (lambda : α) :
    (p.part ι).candidate s (limits.part ι) lambda = pick ι (p.candidate s limits lambda) := by
  refine vector_ext fun j => ?_
  unfold candidate
  simp only [entry_ofFn, entry_pick, CriteriaProblem.part, Bounds.part, MoveLimits.part]

end CriteriaProblem

end Pointwise

namespace CriteriaProblem

variable {N R : Nat} (δ : Distribution N R) (p : CriteriaProblem ℝ N) (s : CriteriaSettings ℝ)

lemma simulates_violation (x : Vector ℝ N) :
    Program.Simulates (p.violation x) (fun r => (p.part (δ.place r)).violation (pick (δ.place r) x))
      fun b c => ∀ r, c r = b := by
  have moved : dot p.dgdx (Vector.zipWith (· - ·) x p.x) =
      ∑ r, dot (p.part (δ.place r)).dgdx
        (Vector.zipWith (· - ·) (pick (δ.place r) x) (p.part (δ.place r)).x) := by
    simp only [dot_eq_sum, entry_zipWith, CriteriaProblem.part, entry_pick]
    exact (δ.sum_place fun j => p.dgdx[j] * (x[j] - p.x[j])).symm
  refine (Program.simulates_sumScalar moved).bind fun sum sum' _ hs => ?_
  refine Program.simulates_pure fun r => ?_
  rw [hs]
  rfl

/-- The ranks halve the bracket as a single rank does. -/
lemma simulates_bisect (limits : MoveLimits ℝ N) (rounds : Nat) (b : Bracket ℝ N) :
    Program.Simulates (p.bisect s limits rounds b)
      (fun r => (p.part (δ.place r)).bisect s (limits.part (δ.place r)) rounds (b.part (δ.place r)))
      fun b c => ∀ r, c r = b.part (δ.place r) := by
  induction rounds generalizing b with
  | zero =>
    unfold bisect
    by_cases hw : s.bracketTolerance < b.hi - b.lo
    · simp only [Bracket.part, hw, if_true]
      exact Program.simulates_unfinished
    · simp only [Bracket.part, hw, if_false]
      exact Program.simulates_pure fun _ => rfl
  | succ rounds ih =>
    unfold bisect
    by_cases hw : s.bracketTolerance < b.hi - b.lo
    · simp only [Bracket.part, hw, if_true, candidate_part]
      refine (simulates_violation δ p _).bind fun violation violation' _ hv => ?_
      simp only [hv]
      exact ih _
    · simp only [Bracket.part, hw, if_false]
      exact Program.simulates_pure fun _ => rfl

/-- The ranks make the update with a single constraint as a single rank does. -/
theorem simulates_step (rounds : Nat) :
    Program.Simulates (p.step s rounds) (fun r => (p.part (δ.place r)).step s rounds)
      fun step c => ∀ r, c r = step.part (δ.place r) := by
  unfold step
  simp only [window_part, candidate_part]
  refine (simulates_violation δ p _).bind fun violation violation' _ hv => ?_
  simp only [hv]
  by_cases hpos : 0 < violation
  · simp only [hpos, if_true]
    cases s.requireBracket with
    | true => exact Program.simulates_fail _
    | false => exact Program.simulates_pure fun _ => rfl
  · simp only [hpos, if_false]
    refine (simulates_bisect δ p s (p.window s) rounds _).bind fun b b' _ hb => ?_
    simp only [hb]
    exact Program.simulates_pure fun _ => rfl

end CriteriaProblem

end MovingAsymptotes
