import MovingAsymptotes.Proofs.Distributed.Part
import MovingAsymptotes.Proofs.Kkt.Residual
import MovingAsymptotes.Proofs.Reduction.Distribution

/-!
# Distributed approximations and residuals

Each rank builds the approximation of its own variables, and the ranks together find the right-hand
sides and the residuals that a single rank finds. What belongs to a variable is counted on its rank,
what belongs to a constraint once.

* `Approximation.simulates_build`: the approximation.
* `Approximation.simulates_residual`, `Gradients.simulates_residual`: the residuals.
-/

namespace MovingAsymptotes

variable {N R m : Nat} (δ : Distribution N R)

namespace Tally

/-- The squares of rows that are spread over the ranks. -/
lemma squares_spread (f : Fin N → List ℝ) :
    (Tally.ofRows ((List.finRange N).flatMap f)).squares = ∑ r : Fin (R + 1),
      (Tally.ofRows ((List.finRange (δ.size r)).flatMap fun j => f (δ.place r j))).squares := by
  have rows : ∀ {n : Nat} (g : Fin n → List ℝ), (Tally.ofRows ((List.finRange n).flatMap g)).squares =
      ∑ j : Fin n, ((g j).map fun q => q * q).sum := by
    intro n g
    rw [squares_ofRows, List.map_flatMap, List.flatMap, List.sum_flatten, List.map_map, Fin.sum_univ_def]
    rfl
  simp only [rows]
  exact (δ.sum_place fun j => ((f j).map fun q => q * q).sum).symm

lemma max_spread_le_iff (f : Fin N → List ℝ) (c : ℝ) :
    (Tally.ofRows ((List.finRange N).flatMap f)).max ≤ c ↔ ∀ r : Fin (R + 1),
      (Tally.ofRows ((List.finRange (δ.size r)).flatMap fun j => f (δ.place r j))).max ≤ c := by
  simp only [max_ofRows_le_iff, forall_mem_flatMap_finRange, forall_and]
  rw [δ.forall_place_iff (p := fun j => ∀ q ∈ f j, |q| ≤ c)]
  exact and_congr_left' ⟨fun h _ => h, fun h => h 0⟩

end Tally

namespace Approximation

lemma sum_localSums (a : Approximation ℝ N m) (x : Vector ℝ N) (i : Fin m) :
    (a.localSums x)[i] =
      ∑ r : Fin (R + 1), ((a.part (δ.place r)).localSums (pick (δ.place r) x))[i] := by
  simp only [entry_localSums]
  rw [← δ.sum_place]
  refine Finset.sum_congr rfl fun r _ => Finset.sum_congr rfl fun j _ => ?_
  simp only [Approximation.part, Asymptotes.above_part, Asymptotes.below_part, entry_pick]

/-- The ranks build their parts of the approximation that a single rank builds. -/
theorem simulates_build (x : Vector ℝ N) (d : Gradients ℝ N m) (asy : Asymptotes ℝ N)
    (limits : MoveLimits ℝ N) (nGlobal : Nat) (s : Settings ℝ) :
    Program.Simulates (build x d asy limits nGlobal s)
      (fun r => build (pick (δ.place r) x) (d.part (δ.place r)) (asy.part (δ.place r))
        (limits.part (δ.place r)) nGlobal s)
      fun a c => ∀ r, c r = a.part (δ.place r) := by
  unfold build
  simp only [← part_coefficients]
  refine (Program.simulates_sum (sum_localSums δ _ x)).bind fun b c _ hc => ?_
  refine Program.simulates_pure fun r => ?_
  rw [hc]
  rfl

/-- The ranks together find the residual of the subproblem that a single rank finds. -/
theorem simulates_residual (a : Approximation ℝ N m) (wt : Weights ℝ m) (w : KktPoint ℝ N m) (epsi : ℝ) :
    Program.Simulates (a.residual wt w epsi)
      (fun r => (a.part (δ.place r)).residual wt (w.part (δ.place r)) epsi)
      fun b c => ∀ r, c r = b := by
  unfold residual
  simp only [localRows_part, a.localRows_eq]
  refine (Program.simulates_sum fun i => ?_).bind fun sums sums' _ hsums => ?_
  · cases i using Fin.lastCases with
    | last =>
      simp only [entry_push_last]
      exact Tally.squares_spread δ _
    | cast i =>
      simp only [entry_push_castSucc]
      exact sum_localSums δ a w.x i
  refine (Program.simulates_maxScalar (Tally.max_spread_le_iff δ _)).bind fun max max' _ hmax => ?_
  refine Program.simulates_pure fun r => ?_
  rw [hsums, hmax]
  rfl

end Approximation

/-- The ranks together find the residual of the problem itself that a single rank finds. -/
theorem Gradients.simulates_residual (d : Gradients ℝ N m) (x : Vector ℝ N) (bounds : Bounds ℝ N)
    (wt : Weights ℝ m) (w : KktPoint ℝ N m) :
    Program.Simulates (d.residual x bounds wt w)
      (fun r => (d.part (δ.place r)).residual (pick (δ.place r) x) (bounds.part (δ.place r)) wt
        (w.part (δ.place r)))
      fun b c => ∀ r, c r = b := by
  unfold residual
  simp only [localRows_part, d.localRows_eq]
  refine (Program.simulates_sumScalar (Tally.squares_spread δ _)).bind fun squares squares' _ hs => ?_
  refine (Program.simulates_maxScalar (Tally.max_spread_le_iff δ _)).bind fun max max' _ hmax => ?_
  refine Program.simulates_pure fun r => ?_
  rw [hs, hmax]
  rfl

end MovingAsymptotes
