import MovingAsymptotes.Proofs.Distributed.Optimizer
import MovingAsymptotes.Proofs.Kkt.Conditions
import MovingAsymptotes.Proofs.Kkt.FixedPoint

/-!
# Residuals over the ranks as measures of one vector

The conditions of the variables are spread over the ranks, and every rank knows those of the constraints and
of `z`. The residuals that the ranks find together, of the subproblem and of the problem itself, are the
measures of the vector that holds all conditions of the undistributed problem, each of them once.

* `Distribution.residuals_measure`: the residuals on every rank, for either problem.
-/

namespace MovingAsymptotes

variable {N R : Nat}

namespace Distribution

/-- However the variables are spread over the ranks, both residuals come to the Euclidean norm and to the
largest absolute value of the `3 * N + 4 * m + 2` conditions of the undistributed problem, on every rank
alike. Thus the two measures bound each other, and they vanish together. -/
theorem residuals_measure (δ : Distribution N R) :
    (∀ m, Fintype.card (Condition N m) = 3 * N + 4 * m + 2) ∧
    (∀ {m : Nat} (a : Approximation ℝ N m) (wt : Weights ℝ m) (w : KktPoint ℝ N m) (epsi : ℝ),
      ∃ res : Residual ℝ,
        Program.outcomes (fun r => (a.part (δ.place r)).residual wt (w.part (δ.place r)) epsi) =
            some (List.ofFn fun r => .done ⟨r, res⟩) ∧
          res.Measures (a.conditions wt w epsi) ∧ res.Comparable (3 * N + 4 * m + 2)) ∧
      ∀ (d : Evaluation ℝ N) (x : Vector ℝ N) (bounds : Bounds ℝ N) {draft : WeightDraft ℝ}
        {wt : Weights ℝ d.g.size}, draft.sized d.g.size = .ok wt → ∀ w : KktPoint ℝ N d.g.size,
        ∃ res : Residual ℝ,
          Program.outcomes (fun r => (d.part (δ.place r)).sensitivities.residual (pick (δ.place r) x)
              (bounds.part (δ.place r)) draft (w.part (δ.place r))) =
              some (List.ofFn fun r => .done ⟨r, res⟩) ∧
            res.Measures (d.gradients.conditions x bounds wt w) ∧
              res.Comparable (3 * N + 4 * d.g.size + 2) := by
  refine ⟨fun m => Condition.card_eq, ?_, ?_⟩
  · intro m a wt w epsi
    have measures : (a.residualOf wt w epsi).Measures (a.conditions wt w epsi) :=
      Residual.measures_ofRows (a.row_eq_conditions wt w epsi ▸ a.rows_eq_map wt w epsi)
    obtain ⟨found, hout, same⟩ :=
      (Approximation.simulates_residual δ a wt w epsi).outcomes_eq (a.residual_serial wt w epsi)
    simp only [same] at hout
    exact ⟨_, hout, measures, Condition.card_eq ▸ measures.comparable⟩
  · intro d x bounds draft wt hw w
    have measures : (d.gradients.residualOf x bounds wt w).Measures (d.gradients.conditions x bounds wt w) :=
      Residual.measures_ofRows (d.gradients.rows_eq_map x bounds wt w)
    have serial := Sensitivities.residual_serial d.matched hw x bounds w
    obtain ⟨found, hout, same⟩ := (d.simulates_residual δ x bounds draft w).outcomes_eq serial
    simp only [same] at hout
    exact ⟨_, hout, measures, Condition.card_eq ▸ measures.comparable⟩

/-- Two variables on the first and on the last of three ranks, and one constraint: the problem itself has
twelve conditions. -/
theorem residuals_measure_around_idle_rank :
    let δ : Distribution 2 2 := ⟨![1, 0, 1], finSigmaFinEquiv.trans (finCongr (by decide))⟩
    let d : Evaluation ℝ 2 := ⟨#v[-2, 3], #[0.3], #v[#v[0.7], #v[-1.5]]⟩
    let x : Vector ℝ 2 := #v[0.4, 1]
    let bounds : Bounds ℝ 2 := ⟨#v[0, 0], #v[1, 2]⟩
    let draft : WeightDraft ℝ := ⟨1, 1, #[0], #[1000], #[1]⟩
    let w : KktPoint ℝ 2 1 := ⟨x, #v[0], 0, #v[2], #v[0, 0], #v[0.6, 0], #v[998], 1, #v[0.5]⟩
    ∃ res : Residual ℝ,
      Program.outcomes (fun r => (d.part (δ.place r)).sensitivities.residual (pick (δ.place r) x)
          (bounds.part (δ.place r)) draft (w.part (δ.place r))) =
          some (List.ofFn fun r => .done ⟨r, res⟩) ∧
        res.Measures (d.gradients.conditions x bounds ⟨1, 1, #v[0], #v[1000], #v[1]⟩ w) ∧
          res.Comparable 12 := by
  intro δ d x bounds draft w
  exact δ.residuals_measure.2.2 d x bounds rfl w

end Distribution

end MovingAsymptotes
