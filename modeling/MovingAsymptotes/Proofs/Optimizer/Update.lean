import Mathlib
import MovingAsymptotes.Optimizer.Update
import MovingAsymptotes.Proofs.Sensitivities
import MovingAsymptotes.Proofs.Subproblem

/-!
# Updates over the reals

An update by a subproblem cannot fail numerically. Whatever the history and the asymptotes of the last
iteration, the subproblem around a design within proper bounds is well posed, and either backend solves
it. Nothing that is divided by on the way is zero.

* `Optimizer.Divisible`: what an update divides by.
* `Optimizer.update_succeeds`: an update ends with a step of the design.
-/

namespace MovingAsymptotes

/-- The largest relative step is bounded as the step of every variable is. -/
lemma localChange_le_iff {n : Nat} (x previous : Vector ℝ n) (b : Bounds ℝ n) (c : ℝ) :
    localChange x previous b ≤ c ↔ 0 ≤ c ∧ ∀ j : Fin n, |(x[j] - previous[j]) / b.range j| ≤ c := by
  have fold : localChange x previous b =
      ((List.finRange n).map fun j : Fin n => |(x[j] - previous[j]) / b.range j|).foldl larger 0 := by
    unfold localChange
    rw [Fin.foldl_eq_foldl_finRange, List.foldl_map]
    rfl
  rw [fold, foldl_larger_le_iff]
  simp only [List.forall_mem_map, List.mem_finRange, true_implies]

namespace Optimizer

variable {n m : Nat} {o : Optimizer ℝ n} {d : Gradients ℝ n m} {wt : Weights ℝ m}

/-- The asymptotes of the next update. -/
noncomputable def nextAsymptotes (o : Optimizer ℝ n) : Asymptotes ℝ n :=
  o.asymptotes.advance (o.iteration + 1) o.history o.bounds o.settings

/-- The subproblem of the next update, as a single rank builds it. -/
noncomputable def subproblem (o : Optimizer ℝ n) (d : Gradients ℝ n m) :
    Program ℝ (Cause ℝ) (Approximation ℝ n m) :=
  Approximation.build o.history.current d o.nextAsymptotes
    (o.nextAsymptotes.moveLimits o.history.current o.bounds o.settings) o.nGlobal o.settings

/-- Everything that an update divides by is different from zero, and no step of its solve fails. -/
structure Divisible (o : Optimizer ℝ n) (d : Gradients ℝ n m) (wt : Weights ℝ m) : Prop where
  /-- The divisors of the relative change. -/
  range : ∀ j : Fin n, o.bounds.range j ≠ 0
  /-- The divisors of the regularisation. -/
  gap : ∀ j : Fin n, larger (o.nextAsymptotes.upp[j] - o.nextAsymptotes.low[j]) minAsymptoteGap ≠ 0
  above : ∀ j : Fin n, o.nextAsymptotes.above o.history.current j ≠ 0
  below : ∀ j : Fin n, o.nextAsymptotes.below o.history.current j ≠ 0
  weights : wt.b0 ≠ 0 ∧ ∀ i : Fin m, wt.d[i] ≠ 0
  /-- The number of constraints, by which the damping of the dual method divides. -/
  count : (m : ℝ) ≠ 0
  dual : ∀ a, (o.subproblem d).serial = .done a → a.DualSafe wt o.settings
  interior : ∀ a e, (o.subproblem d).serial = .done a → a.InteriorSafe wt o.settings e
  /-- A direction that does not move a multiplier does not bound the step of the dual method. -/
  idle : ∀ theta v : ℝ, DualState.shorten theta v 0 = theta

section Subproblem

variable (hb : o.bounds.Proper) (hx : o.bounds.Contains o.history.current)
  (hs : o.settings.Valid)
include hb hs

lemma nextAsymptotes_encloses : o.nextAsymptotes.Encloses o.history.current :=
  Asymptotes.advance_encloses _ _ _ hb hs

include hx

lemma subproblem_returns (d : Gradients ℝ n m) : (o.subproblem d).Returns Approximation.WellPosed := by
  have ha := nextAsymptotes_encloses hb hs
  have hl := Asymptotes.moveLimits_nested ha hb hx hs
  refine ⟨_, ?_, Approximation.around_wellPosed d o.nGlobal ha hl hs⟩
  unfold subproblem
  exact Approximation.build_serial _ _ _ _ _ _

/-- Nothing that an update divides by is zero. -/
theorem divisible (hw : wt.Valid) (hm : m ≠ 0) (d : Gradients ℝ n m) : o.Divisible d wt := by
  have ha := nextAsymptotes_encloses hb hs
  have well : ∀ a, (o.subproblem d).serial = .done a → a.WellPosed :=
    fun a h => (subproblem_returns hb hx hs d).of_serial h
  exact
    { range := fun j => (hb.range_pos j).ne'
      gap := fun j => (Approximation.gap_pos _ j).ne'
      above := fun j => (sub_pos.2 (ha j).2).ne'
      below := fun j => (sub_pos.2 (ha j).1).ne'
      weights := ⟨hw.b0_pos.ne', fun i => (hw.d_pos i).ne'⟩
      count := Nat.cast_ne_zero.2 hm
      dual := fun a h => Approximation.dualSafe (well a h) hw _
      interior := fun a e h => Approximation.interiorSafe (well a h) hw _ e
      idle := DualState.shorten_zero }

lemma subproblemStep_ends (hw : wt.Valid) (hm : m ≠ 0) (d : Gradients ℝ n m) {k : Nat}
    (hk : o.settings.Allows k) :
    ∃ step, ∀ rounds, k ≤ rounds → (o.subproblemStep (.single rounds) d wt).serial = .done step := by
  obtain ⟨a, hd, ha⟩ := subproblem_returns hb hx hs d
  obtain ⟨sol, hsol⟩ := Approximation.solve_ends ha hw hm hs hk
  refine ⟨.subproblem o.nextAsymptotes
    (o.nextAsymptotes.moveLimits o.history.current o.bounds o.settings) ⟨m, sol⟩, fun rounds hr => ?_⟩
  unfold subproblemStep
  unfold subproblem nextAsymptotes at hd
  simp only [Program.serial_bind, Program.serial_mapError, hd, hsol rounds hr, Outcome.andThen,
    Program.serial_pure]
  rfl

/-- An update with at least two constraints ends with a step and its size. -/
lemma attemptUpdate_ends (hw : wt.Valid) (hm : 2 ≤ m) (d : Gradients ℝ n m) {k : Nat}
    (hk : o.settings.Allows k) :
    ∃ step change, ∀ rounds, k ≤ rounds →
      (o.attemptUpdate (.single rounds) d (by omega) wt).serial = .done (step, change) := by
  obtain ⟨taken, ht⟩ := subproblemStep_ends hb hx hs hw (by omega) d hk
  refine ⟨taken, localChange taken.x o.history.current o.bounds, fun rounds hr => ?_⟩
  unfold attemptUpdate step
  rw [if_neg (by omega)]
  simp only [Program.serial_bind, Program.serial_mapError, ht rounds hr, Outcome.andThen]
  rfl

end Subproblem

/-- Setting the number of constraints may replace the weights, and leaves everything else alone. -/
lemma setConstraintCount_shape {α : Type} [Scalar α] (o : Optimizer α n) (k : Nat) :
    ∃ m weights, o.setConstraintCount k = { o with m, weights } := by
  unfold setConstraintCount
  split
  · exact ⟨_, _, rfl⟩
  · exact ⟨_, _, rfl⟩

lemma setConstraintCount_bounds {α : Type} [Scalar α] (o : Optimizer α n) (m : Nat) :
    (o.setConstraintCount m).bounds = o.bounds := by
  obtain ⟨_, _, h⟩ := o.setConstraintCount_shape m
  rw [h]

lemma setConstraintCount_history {α : Type} [Scalar α] (o : Optimizer α n) (m : Nat) :
    (o.setConstraintCount m).history = o.history := by
  obtain ⟨_, _, h⟩ := o.setConstraintCount_shape m
  rw [h]

lemma setConstraintCount_settings {α : Type} [Scalar α] (o : Optimizer α n) (m : Nat) :
    (o.setConstraintCount m).settings = o.settings := by
  obtain ⟨_, _, h⟩ := o.setConstraintCount_shape m
  rw [h]

/-- The count is the one asked for, also where it stays. -/
lemma setConstraintCount_m {α : Type} [Scalar α] (o : Optimizer α n) (m : Nat) :
    (o.setConstraintCount m).m = m := by
  unfold setConstraintCount
  split
  · rfl
  · next h => exact (not_not.1 (not_or.1 h).1).symm

lemma contains_counted (hx : o.bounds.Contains o.history.current) (m : Nat) :
    (o.setConstraintCount m).bounds.Contains (o.setConstraintCount m).history.current := by
  rw [setConstraintCount_bounds, setConstraintCount_history]
  exact hx

/-- Setting the number of constraints leaves accepted weights in force, and nothing else changes. -/
lemma setConstraintCount_eq (hw : o.m = m → ∃ wt, o.weights.validate m = .ok wt) :
    ∃ (weights : WeightDraft ℝ) (wt : Weights ℝ m),
      o.setConstraintCount m = { o with m, weights } ∧ weights.validate m = .ok wt := by
  unfold setConstraintCount
  split
  · obtain ⟨wt, h⟩ := WeightDraft.validate_default m
    exact ⟨_, wt, rfl, h⟩
  · next h =>
    have hm : o.m = m := by
      by_contra hne
      exact h (Or.inl (Ne.symm hne))
    obtain ⟨wt, h⟩ := hw hm
    subst hm
    exact ⟨o.weights, wt, rfl, h⟩

/-- An update by a subproblem cannot fail numerically: with at least two constraints it ends with a step
of the design, whatever the history, the asymptotes and the backend, and it divides by nothing that is
zero. -/
theorem update_succeeds {ε : Type} {sens : Sensitivities ℝ} {d : Gradients ℝ n sens.g.size}
    (hb : o.bounds.Proper) (hx : o.bounds.Contains o.history.current)
    (hs : o.settings.validate = .ok ()) (hd : sens.matched n = .ok d) (hm : 2 ≤ sens.g.size)
    (hw : o.m = sens.g.size → ∃ wt, o.weights.validate sens.g.size = .ok wt) :
    (∃ wt, (o.setConstraintCount sens.g.size).weights.validate sens.g.size = .ok wt ∧
      (o.setConstraintCount sens.g.size).Divisible d wt) ∧
    ∃ rounds₀ o' change, ∀ rounds, rounds₀ ≤ rounds →
      (o.update (.single rounds) sens : Program ℝ ε _).serial = .done (o', .ok change) := by
  have hv := (Settings.validate_eq_ok_iff _).1 hs
  obtain ⟨weights, wt, ho, hwt⟩ := setConstraintCount_eq hw
  have hvalid := (WeightDraft.validate_eq_ok_iff.1 hwt).2
  refine ⟨⟨wt, by rw [ho]; exact hwt, ?_⟩, ?_⟩
  · rw [ho]
    exact divisible (o := { o with m := sens.g.size, weights }) hb hx hv hvalid (by omega) d
  · obtain ⟨k, hk⟩ := hv.exists_allows
    obtain ⟨step, change, h⟩ := attemptUpdate_ends (o := { o with m := sens.g.size, weights }) hb hx hv
      hvalid hm d (hk k (le_refl k))
    refine ⟨k, commit { o with m := sens.g.size, weights } step change, change,
      fun rounds hr => ?_⟩
    unfold update
    rw [dif_neg (by omega), hd]
    simp only [ho, hwt, Program.serial_bind, Program.serial_attempt, h rounds hr, Outcome.andThen]
    rfl

/-- The first update of a single variable under two constraints. -/
theorem first_update_succeeds :
    ∃ rounds₀ o' change, ∀ rounds, rounds₀ ≤ rounds →
      ((initial 1 1).update (.single rounds) ⟨#[1], #[-1, 0], ⟨1, 2, #v[#v[1, -1]]⟩⟩ :
        Program ℝ Empty (Optimizer ℝ 1 × Except (Failure ℝ) ℝ)).serial = .done (o', .ok change) := by
  have bound : ∀ c : ℝ, ∀ j : Fin 1, (Vector.replicate 1 c)[j] = c := entry_replicate
  refine (update_succeeds (o := initial 1 1)
    ?_ ?_ Settings.validate_default (Sensitivities.matched_mk #v[1] #[-1, 0] #v[#v[1, -1]])
    (le_refl 2) ?_).2
  · intro j
    change (Vector.replicate 1 (0 : ℝ))[j] < (Vector.replicate 1 (1 : ℝ))[j]
    rw [bound, bound]
    exact one_pos
  · intro j
    change (Vector.replicate 1 (0 : ℝ))[j] ≤ (Vector.replicate 1 (0.5 : ℝ))[j] ∧
      (Vector.replicate 1 (0.5 : ℝ))[j] ≤ (Vector.replicate 1 (1 : ℝ))[j]
    rw [bound, bound, bound]
    norm_num
  · exact nofun

end Optimizer

end MovingAsymptotes
