import MovingAsymptotes.Proofs.Optimizer.Log
import MovingAsymptotes.Proofs.Reduction.Lockstep

/-!
# Updates of a group

The ranks of a group make an update together. If it succeeds on all of them, each of them has advanced
within its move limits, and the change that it reports is the largest relative step of a variable on any
rank: the last reduction of an update is that of the change, and the last reductions of all ranks are one.

* `Optimizer.attemptUpdate_group`: the change that the ranks report.
* `Optimizer.update_group`: what a successful update of a group leads to.
-/

namespace MovingAsymptotes.Optimizer

open Program Session

variable {R : Nat} {size m : Fin (R + 1) → Nat} {o : ∀ r, Optimizer ℝ (size r)} {e : Execution}
  {change : Fin (R + 1) → ℝ}

section Attempt

/-- The end of an attempted update: the change of the design is found. -/
noncomputable def measured {n : Nat} (o : Optimizer ℝ n) (step : UpdateStep ℝ n) :
    Program ℝ (Failure ℝ) (UpdateStep ℝ n × ℝ) :=
  (designChange step.x o.history.current o.bounds).mapError (fun cause => { during := [], cause }) >>=
    fun change => .pure (step, change)

lemma measured_single {n : Nat} (o : Optimizer ℝ n) (step : UpdateStep ℝ n) : (o.measured step).Single :=
  ((single_reduceScalar .max _).mapError _).map _

variable {d : ∀ r, Gradients ℝ (size r) (m r)} {hm : ∀ r, 0 < m r} {wt : ∀ r, Weights ℝ (m r)}
  {step : ∀ r, UpdateStep ℝ (size r)}

/-- An attempted update of a group ends with the step of each rank, and with a change that is the largest
of the ranks' own changes. -/
theorem attemptUpdate_group
    (h : GroupEnds (fun r => (o r).attemptUpdate e (d r) (hm r) (wt r)) fun r => .done (step r, change r)) :
    GroupEnds (fun r => (o r).step e (d r) (hm r) (wt r)) (fun r => .done (step r)) ∧
      ∀ r limit, change r ≤ limit ↔
        ∀ q, localChange (step q).x (o q).history.current (o q).bounds ≤ limit := by
  obtain ⟨taken, htaken, hlast⟩ := GroupEnds.last (G := fun r => (o r).measured)
    (fun r => (o r).measured_single) h
  obtain ⟨found, hfound, hpair⟩ := hlast.of_map
  obtain rfl : taken = step := funext fun r => congrArg Prod.fst (hpair r)
  obtain rfl : found = change := funext fun r => congrArg Prod.snd (hpair r)
  exact ⟨htaken, hfound.of_mapError.maxScalar⟩

end Attempt

variable {ε : Type} {o' : ∀ r, Optimizer ℝ (size r)} {s : Fin (R + 1) → Sensitivities ℝ}

/-- A successful update of a group has been attempted on every rank. -/
lemma update_group_attempted
    (h : GroupEnds (fun r => ((o r).update e (s r) : Program ℝ ε _)) fun r => .done (o' r, .ok (change r))) :
    ∃ (hm : ∀ r, (s r).g.size ≠ 0) (d : ∀ r, Gradients ℝ (size r) (s r).g.size)
      (wt : ∀ r, Weights ℝ (s r).g.size) (step : ∀ r, UpdateStep ℝ (size r)),
      GroupEnds (fun r => ((o r).setConstraintCount (s r).g.size).attemptUpdate e (d r)
        (Nat.pos_of_ne_zero (hm r)) (wt r)) (fun r => .done (step r, change r)) ∧
      ∀ r, o' r = ((o r).setConstraintCount (s r).g.size).commit (step r) (change r) := by
  have attempted : ∀ r, ∃ (hm : (s r).g.size ≠ 0) (d : Gradients ℝ (size r) (s r).g.size)
      (wt : Weights ℝ (s r).g.size), ((o r).update e (s r) : Program ℝ ε _) =
        (((o r).setConstraintCount (s r).g.size).attemptUpdate e d (Nat.pos_of_ne_zero hm) wt).attempt >>=
          fun result => .pure (((o r).setConstraintCount (s r).g.size).settled result) := by
    intro r
    have refused : ∀ {o₁ : Optimizer ℝ (size r)} {failure : Failure ℝ},
        ((o r).update e (s r) : Program ℝ ε _) ≠ .pure (o₁, .error failure) := by
      intro o₁ failure hr
      have hok := hr.symm.trans (h.all_ended (.done (o₁, .error failure)) hr r)
      cases Program.pure.inj hok
    have course := (o r).update_course (ε := ε) e (s r)
    generalize (o r).update e (s r) = p at course refused ⊢
    cases course with
    | unfit => exact absurd rfl refused
    | refused => exact absurd rfl refused
    | attempted hm hd hwt => exact ⟨hm, _, _, rfl⟩
  choose hm d wt hp using attempted
  rw [funext hp] at h
  obtain ⟨result, hresult, hsettled⟩ := h.of_map
  have found : ∀ r, ∃ step, result r = .ok (step, change r) ∧
      o' r = ((o r).setConstraintCount (s r).g.size).commit step (change r) := by
    intro r
    have hr := hsettled r
    cases hres : result r with
    | error failure =>
      rw [hres] at hr
      cases congrArg Prod.snd hr
    | ok pair =>
      obtain ⟨step, own⟩ := pair
      rw [hres] at hr
      obtain rfl : own = change r := Except.ok.inj (congrArg Prod.snd hr)
      exact ⟨step, rfl, (congrArg Prod.fst hr).symm⟩
  choose step hstep hcommit using found
  rw [show result = fun r => .ok (step r, change r) from funext hstep] at hresult
  exact ⟨hm, d, wt, step, hresult.of_attempt, hcommit⟩

lemma stepLimit_counted {n : Nat} (o : Optimizer ℝ n) (k m : Nat) :
    (o.setConstraintCount k).stepLimit m = o.stepLimit m := by
  unfold stepLimit
  rw [setConstraintCount_settings]

/-- If an update of a group succeeds, every rank advances within move limits around its design. The change
that it reports is not negative, and at most what the settings allow. -/
theorem update_group {nGlobal : Nat} {log : ∀ r, List (Call ℝ × Entry ℝ (size r))}
    (hlog : ∀ r, Log nGlobal (log r) (o r)) (hx : ∀ r, (o r).bounds.Contains (o r).history.current)
    (h : outcomes (fun r => ((o r).update e (s r) : Program ℝ ε _)) =
      some (List.ofFn fun r => .done ⟨r, o' r, .ok (change r)⟩)) (r : Fin (R + 1)) :
    (o r).Advances (s r).g.size (o' r) ∧ 0 ≤ change r ∧
      ∀ limit, (∀ q, (o q).stepLimit (s q).g.size ≤ limit) → change r ≤ limit := by
  obtain ⟨hm, d, wt, step, hattempt, hcommit⟩ := update_group_attempted (groupEnds_of_outcomes h)
  obtain ⟨hstep, hchange⟩ := attemptUpdate_group hattempt
  have inside : ∀ q, ((o q).setConstraintCount (s q).g.size).bounds.Contains
      ((o q).setConstraintCount (s q).g.size).history.current := by
    intro q
    rw [setConstraintCount_bounds, setConstraintCount_history]
    exact hx q
  have found := fun q => (step_ensures ((hlog q).configured.counted _) (inside q) e (d q)
    (Nat.pos_of_ne_zero (hm q)) (wt q)).of_ends (hstep.ends q)
  refine ⟨?_, ?_, fun limit hlimit => (hchange r limit).2 fun q => ?_⟩
  · rw [hcommit r]
    exact ((found r).1 (change r)).of_counted
  · have own := (hchange r (change r)).1 (le_refl _) r
    exact ((localChange_le_iff _ _ _ _).1 own).1
  · have hq := (found q).2
    rw [stepLimit_counted] at hq
    exact hq.trans (hlimit q)

theorem first_update_group : ∃ e, ∃ o' : Optimizer ℝ 1, ∃ change : ℝ,
    ((initial 1 1).update e ⟨#[1], #[-1, 0], ⟨1, 2, #v[#v[1, -1]]⟩⟩ : Program ℝ Empty _).serial =
      .done (o', .ok change) ∧
    (initial 1 1 : Optimizer ℝ 1).Advances 2 o' ∧ 0 ≤ change ∧ change ≤ 0.5 := by
  let d : Evaluation ℝ 1 := ⟨#v[1], #[-1, 0], #v[#v[1, -1]]⟩
  let o : Optimizer ℝ 1 := initial 1 1
  have ho := (initial_configured 1 1).counted 2
  obtain ⟨k, hk⟩ := ho.settings.exists_allows
  obtain ⟨wt, hwt⟩ := WeightDraft.validate_default 2
  have hw := (WeightDraft.validate_eq_ok_iff.1 hwt).2
  obtain ⟨step, change, hstep⟩ := attemptUpdate_ends ho.bounds (initial_contains 1 1) ho.settings hw
    (le_refl 2) d.gradients (hk k (le_refl k))
  have attempted : (((o.setConstraintCount 2).attemptUpdate (.single k) d.gradients two_pos wt).attempt :
      Program ℝ Empty _).serial = .done (.ok (step, change)) := by
    rw [serial_attempt, hstep k (le_refl k)]
  have updated : (o.update (.single k) d.sensitivities : Program ℝ Empty _).serial =
      .done ((o.setConstraintCount 2).commit step change, .ok change) :=
    update_serial (o := o) (.single k) two_ne_zero d.matched hwt attempted
  have ends : outcomes (fun _ : Fin 1 => (o.update (.single k) d.sensitivities : Program ℝ Empty _)) =
      some (List.ofFn fun r => .done ⟨r, (o.setConstraintCount 2).commit step change, .ok change⟩) := by
    rw [(inStep_serial _).outcomes_eq, updated]
    rfl
  obtain ⟨hadvances, hnonneg, hle⟩ := update_group (o := fun _ : Fin 1 => o) (fun _ => Log.initial 1)
    (fun _ => initial_contains 1 1) ends 0
  refine ⟨.single k, _, change, updated, hadvances, hnonneg, hle 0.5 fun _ => ?_⟩
  exact le_refl (0.5 : ℝ)

end MovingAsymptotes.Optimizer
