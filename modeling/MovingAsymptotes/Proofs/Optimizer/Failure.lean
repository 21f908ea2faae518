import MovingAsymptotes.Proofs.Optimizer.Log

/-!
# Calls that fail

What a call that fails leaves behind, over any scalars and whatever the other ranks contribute. Bounds
and designs that are refused change nothing, and neither does an update whose arguments do not fit. An
update that fails later has taken over the number of constraints, and if that is another one than before
the weights have gone back to their defaults; everything else is as it was.

* `Optimizer.perform_failed`: the state after a call that fails.
-/

namespace MovingAsymptotes.Optimizer

open Session

section Scalars

variable {α ε : Type} [Scalar α] {n : Nat}

/-- The state that an update may leave behind although it fails. -/
inductive Leaves (o : Optimizer α n) (s : Sensitivities α) : Optimizer α n → Prop
  | same : Leaves o s o
  /-- The number of constraints is taken over, and the weights do not survive that. -/
  | counted {d} : s.g.size ≠ 0 → s.matched n = .ok d → s.g.size ≠ o.m ∨ o.weights.size ≠ s.g.size →
    Leaves o s { o with m := s.g.size, weights := .default s.g.size }

lemma leaves_counted {o : Optimizer α n} {s : Sensitivities α} {d : Gradients α n s.g.size}
    (hm : s.g.size ≠ 0) (hd : s.matched n = .ok d) : o.Leaves s (o.setConstraintCount s.g.size) := by
  unfold setConstraintCount
  split
  · next h => exact .counted hm hd h
  · exact .same

lemma update_leaves (o : Optimizer α n) (e : Execution) (s : Sensitivities α) :
    (o.update e s : Program α ε _).Ensures .any fun next =>
      ∀ failure, next.2 = .error failure → o.Leaves s next.1 := by
  have course := o.update_course (ε := ε) e s
  generalize o.update e s = p at course ⊢
  cases course with
  | unfit => exact fun _ _ => .same
  | refused hm hd => exact fun _ _ => leaves_counted hm hd
  | attempted hm hd hwt =>
    refine Program.ensures_bind fun result => ?_
    cases result with
    | error failure => exact fun _ _ => leaves_counted hm hd
    | ok found => exact nofun

/-- The state after a call that fails is the state before it, unless settings were refused, which ends
the session, or an update took over another number of constraints. -/
theorem perform_failed (o : Optimizer α n) (e : Execution) (call : Call α) :
    (o.perform e call : Program α ε _).Ensures .any fun entry =>
      ∀ failure, entry.reply = .error failure →
        entry.state = some o ∨ (∃ settings, call = .configure settings ∧ entry.state = none) ∨
          ∃ s o', call = .update s ∧ entry.state = some o' ∧ o.Leaves s o' := by
  cases call with
  | setConstraintCount m => exact nofun
  | editWeights edit => exact nofun
  | configure settings =>
    unfold perform
    dsimp only
    cases o.withSettings settings with
    | ok o' => exact nofun
    | error cause => exact fun _ _ => Or.inr (Or.inl ⟨settings, rfl, rfl⟩)
  | setBounds lower upper =>
    change ∀ failure, (o.settle .accepted (o.setBounds lower upper)).reply = .error failure → _
    cases o.setBounds lower upper with
    | ok o' => exact nofun
    | error cause => exact fun _ _ => Or.inl rfl
  | setDesign x =>
    change ∀ failure, (o.settle .accepted (o.setDesign x)).reply = .error failure → _
    cases o.setDesign x with
    | ok o' => exact nofun
    | error cause => exact fun _ _ => Or.inl rfl
  | update s =>
    refine (update_leaves o e s).bind fun next hnext => ?_
    obtain ⟨o', result⟩ := next
    cases result with
    | ok change => exact nofun
    | error failure => exact fun _ _ => Or.inr (Or.inr ⟨s, o', rfl, rfl, hnext failure rfl⟩)
  | kktCheck s => exact Program.ensures_bind fun _ _ _ => Or.inl rfl

end Scalars

section Unbracketed

lemma update_of_failed_criteria {ε : Type} {n : Nat} {o : Optimizer ℝ n} {e : Execution}
    {s : Sensitivities ℝ} {d : Gradients ℝ n s.g.size} {wt : Weights ℝ s.g.size} {cause : Cause ℝ}
    (hm : s.g.size ≠ 0) (h2 : s.g.size < 2) (hd : s.matched n = .ok d)
    (hwt : (o.setConstraintCount s.g.size).weights.validate s.g.size = .ok wt)
    (hc : ((o.setConstraintCount s.g.size).criteriaStep e d (Nat.pos_of_ne_zero hm)).serial = .failed cause) :
    (o.update e s : Program ℝ ε _).serial =
      .done (o.setConstraintCount s.g.size,
        .error { during := [.criteriaUpdate ((o.setConstraintCount s.g.size).iteration + 1)], cause }) := by
  let o₁ := o.setConstraintCount s.g.size
  have attempted : ((o₁.attemptUpdate e d (Nat.pos_of_ne_zero hm) wt).attempt : Program ℝ ε _).serial =
      .done (.error { during := [.criteriaUpdate (o₁.iteration + 1)], cause }) := by
    unfold attemptUpdate step
    rw [if_pos h2]
    simp only [o₁, Program.serial_attempt, Program.serial_bind, Program.serial_mapError, hc,
      Outcome.andThen]
  exact update_serial e hm hd hwt attempted

/-- The usual settings, except that a constraint that cannot be met is refused. -/
noncomputable def strictSettings : Settings ℝ :=
  { Settings.default with oc := { CriteriaSettings.default with requireBracket := true } }

lemma strictSettings_validate : strictSettings.validate = .ok () := by
  have hd := (Settings.validate_eq_ok_iff _).1 Settings.validate_default
  exact (Settings.validate_eq_ok_iff _).2 { hd with oc := { hd.oc with } }

noncomputable def strict (m : Nat) : Optimizer ℝ 1 :=
  { initial 1 1 with m, weights := .default m, settings := strictSettings }

/-- A single constraint that no design within the window meets. -/
noncomputable def unmet : Evaluation ℝ 1 where
  dfdx := #v[-1]
  g := #[1]
  dgdx := #v[#v[1]]

lemma log_strict : ∃ log, Log 1 log (strict 2) := by
  have configured : Log 1 _ _ := (Log.initial 1).call (.single 0)
    (by rw [perform_configure (.single 0) strictSettings_validate]; exact .pure) rfl
  have counted : Log 1 _ _ := configured.call (.single 0)
    (show Program.Ends _ (Optimizer.perform _ _ (.setConstraintCount 2)) _ from .pure) rfl
  exact ⟨_, counted⟩

lemma criteriaStep_unmet : ∃ cause,
    ((strict 1).criteriaStep (.single 0) unmet.gradients one_pos).serial = .failed cause := by
  let p := (strict 1).criteriaProblem unmet.gradients one_pos
  let s := strictSettings.oc
  let x := p.candidate s (p.window s) s.lambdaUpper
  have half : p.x[(0 : Fin 1)] = 0.5 := entry_replicate _ 0
  have range : p.bounds.range 0 = 1 := by
    change (Vector.replicate 1 (1 : ℝ))[(0 : Fin 1)] - (Vector.replicate 1 (0 : ℝ))[(0 : Fin 1)] = 1
    rw [entry_replicate, entry_replicate, sub_zero]
  have valid := ((Settings.validate_eq_ok_iff _).1 strictSettings_validate).oc
  have window := CriteriaProblem.window_contains (p := p) (initial_configured 1 1).bounds
    (initial_contains 1 1) valid
  have near := (CriteriaProblem.candidate_contains (p := p) (s := s)
    (fun j => (window j).1.trans (window j).2) s.lambdaUpper 0).1
  rw [CriteriaProblem.entry_window_alfa, half, range] at near
  have move : s.moveLimit = 0.2 := rfl
  have low : 0.3 ≤ x[(0 : Fin 1)] := by
    refine le_trans ?_ ((le_max_left _ _).trans near)
    rw [move]
    norm_num
  have violated : 0 < p.linearised x := by
    have slope : p.dgdx[(0 : Fin 1)] = 1 := entry_map _ _ 0
    have value : p.g = 1 := rfl
    unfold CriteriaProblem.linearised
    rw [Fin.sum_univ_one, half, slope, value]
    linarith
  exact ⟨_, p.step_refused s rfl 0 violated⟩

/-- An update that fails has lost the number of constraints, and the weights with it. -/
theorem failed_update_loses_weights : ∃ log, ∃ o o' : Optimizer ℝ 1, ∃ s failure, Log 1 log o ∧
    (o.update (.single 0) s : Program ℝ (Cause ℝ) _).serial = .done (o', .error failure) ∧
      o'.m ≠ o.m ∧ o'.weights.size ≠ o.weights.size := by
  obtain ⟨log, hlog⟩ := log_strict
  obtain ⟨cause, hcause⟩ := criteriaStep_unmet
  obtain ⟨wt, hwt⟩ := WeightDraft.validate_default 1
  have failed := update_of_failed_criteria (ε := Cause ℝ) (o := strict 2) (e := .single 0) one_ne_zero
    one_lt_two unmet.matched hwt hcause
  exact ⟨log, strict 2, _, _, _, hlog, failed, by decide, by decide⟩

end Unbracketed

end MovingAsymptotes.Optimizer
