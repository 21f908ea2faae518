import MovingAsymptotes.Proofs.Optimizer.Conditions
import MovingAsymptotes.Proofs.Optimizer.Log

/-!
# Weights that an update finds

A caller may leave weights of any lengths and with any entries in the state. Before an update checks them it
takes over the number of constraints, and for that the weights are measured by their vector `a` alone. Weights
whose `a` is long enough are kept, and then the check decides: it stops the update before any reduction, or the
update is made with the entries that the caller has left. Weights whose `a` has another length never come to the
check. They are replaced by the usual ones, and nobody is told.

* `Optimizer.update_of_kept`, `Optimizer.update_of_replaced`: the two cases.
* `Optimizer.update_weighs`: what an update does with weights of any kind.
* `Optimizer.unfit_weights_replaced`: an update that replaces weights and succeeds.
-/

namespace MovingAsymptotes

/-- Weights whose vector `a` has another length are refused for that. -/
lemma WeightDraft.validate_of_misfit {α : Type} [Scalar α] {w : WeightDraft α} {m : Nat} (h : w.size ≠ m) :
    w.validate m = .error (.dimensionMismatch "weight a" m w.size) := by
  have length : checkedLength "weight a" m w.a = .error (.dimensionMismatch "weight a" m w.size) := dif_neg h
  have sized : w.sized m = .error (.dimensionMismatch "weight a" m w.size) := by
    unfold WeightDraft.sized
    rw [length]
    rfl
  unfold WeightDraft.validate
  rw [sized]
  rfl

namespace Optimizer

section Scalars

variable {α ε : Type} [Scalar α] {n : Nat} {o : Optimizer α n} {w : WeightDraft α}

lemma setConstraintCount_of_size (h : o.weights.size = o.m) : o.setConstraintCount o.m = o :=
  if_neg fun changed => changed.elim (fun ne => ne rfl) (fun ne => ne h)

lemma setConstraintCount_of_misfit {m : Nat} (h : o.weights.size ≠ m) :
    o.setConstraintCount m = { o with m, weights := .default m } :=
  if_pos (.inr h)

/-- The usual weights for the number of constraints are left in force. -/
lemma setConstraintCount_default (o : Optimizer α n) :
    (o.editWeights fun _ => .default o.m).setConstraintCount o.m = o.editWeights fun _ => .default o.m :=
  setConstraintCount_of_size (o := o.editWeights fun _ => .default o.m) (WeightDraft.default_serves o.m).a

variable (e : Execution) {s : Sensitivities α} {d : Gradients α n s.g.size}

/-- Weights whose `a` fits outlast an update, whatever the other ranks contribute. -/
lemma update_of_kept (hg : s.g.size = o.m) (hw : o.weights.size = o.m) :
    (o.update e s : Program α ε _).Ensures .any fun next => next.1.weights = o.weights := by
  have kept : o.setConstraintCount s.g.size = o := by
    rw [hg]
    exact setConstraintCount_of_size hw
  have course := o.update_course (ε := ε) e s
  generalize o.update e s = program at course ⊢
  cases course with
  | unfit => exact rfl
  | refused _ _ => exact congrArg weights kept
  | attempted hm hd hwt =>
    refine Program.ensures_bind fun result => ?_
    rw [kept]
    obtain ⟨-, -, -, hw⟩ := o.settled_keeps result
    exact hw

/-- Weights whose `a` does not fit make no difference: the update is the one with the usual weights. -/
lemma update_of_replaced (hm : s.g.size ≠ 0) (hg : s.g.size = o.m) (hd : s.matched n = .ok d)
    (hw : w.size ≠ o.m) :
    ((o.editWeights fun _ => w).update e s : Program α ε _) =
      (o.editWeights fun _ => .default o.m).update e s := by
  have counted : (o.editWeights fun _ => w).setConstraintCount s.g.size =
      (o.editWeights fun _ => .default o.m).setConstraintCount s.g.size := by
    rw [hg, setConstraintCount_default]
    exact setConstraintCount_of_misfit (o := o.editWeights fun _ => w) hw
  -- From here on an update looks at the state with the constraints counted only.
  cases hwt : ((o.editWeights fun _ => w).setConstraintCount s.g.size).weights.validate s.g.size with
  | error cause =>
    rw [update_of_refused e hm hd hwt, counted]
    rw [counted] at hwt
    exact (update_of_refused e hm hd hwt).symm
  | ok wt =>
    rw [update_of_accepted e hm hd hwt, counted]
    rw [counted] at hwt
    exact (update_of_accepted e hm hd hwt).symm

/-- Whatever weights a caller leaves: if their vector `a` has an entry for each constraint and the check refuses
them, an update takes part in no reduction, fails with the cause that the check gives and leaves them in force.
If the check accepts them, the update is attempted with exactly their entries and they stay in force, however it
ends. If `a` has another length, the check would refuse them for it, but the update is the one with the usual
weights, which are in force from then on. -/
theorem update_weighs (hm : 0 < o.m) (hg : s.g.size = o.m) (hd : s.matched n = .ok d) (w : WeightDraft α) :
    (w.size = o.m → ∀ cause, w.validate s.g.size = .error cause →
      ((o.editWeights fun _ => w).update e s : Program α ε _) =
        .pure (o.editWeights fun _ => w, .error { during := [], cause })) ∧
    (∀ wt, w.validate s.g.size = .ok wt →
      w = ⟨wt.a0, wt.b0, wt.a.toArray, wt.c.toArray, wt.d.toArray⟩ ∧
      ((o.editWeights fun _ => w).update e s : Program α ε _) =
        (((o.editWeights fun _ => w).attemptUpdate e d (hg ▸ hm) wt).attempt >>= fun result =>
          Pure.pure ((o.editWeights fun _ => w).settled result)) ∧
      ((o.editWeights fun _ => w).update e s : Program α ε _).Ensures .any fun next => next.1.weights = w) ∧
    (w.size ≠ o.m →
      w.validate s.g.size = .error (.dimensionMismatch "weight a" s.g.size w.size) ∧
      ((o.editWeights fun _ => w).update e s : Program α ε _) =
        (o.editWeights fun _ => .default o.m).update e s ∧
      ((o.editWeights fun _ => w).update e s : Program α ε _).Ensures .any fun next =>
        next.1.weights = .default o.m) := by
  have some : s.g.size ≠ 0 := by omega
  have kept (h : w.size = o.m) :
      (o.editWeights fun _ => w).setConstraintCount s.g.size = o.editWeights fun _ => w := by
    rw [hg]
    exact setConstraintCount_of_size (o := o.editWeights fun _ => w) h
  refine ⟨fun h cause refused => ?_, fun wt accepted => ?_, fun h => ?_⟩
  · have refused' : ((o.editWeights fun _ => w).setConstraintCount s.g.size).weights.validate s.g.size =
        .error cause := by
      rw [kept h]
      exact refused
    rw [update_of_refused e some hd refused', kept h]
  · have h : w.size = o.m := (WeightDraft.serves_of_validate accepted).a.trans hg
    have accepted' : ((o.editWeights fun _ => w).setConstraintCount s.g.size).weights.validate s.g.size =
        .ok wt := by
      rw [kept h]
      exact accepted
    refine ⟨WeightDraft.sized_eq_ok_iff.1 (WeightDraft.validate_eq_ok_iff_positive.1 accepted).1, ?_, ?_⟩
    · rw [update_of_accepted e some hd accepted', kept h]
    · exact update_of_kept (o := o.editWeights fun _ => w) e hg h
  · rw [update_of_replaced e some hg hd h]
    exact ⟨WeightDraft.validate_of_misfit (by omega), rfl,
      update_of_kept (o := o.editWeights fun _ => .default o.m) e hg (WeightDraft.default_serves o.m).a⟩

end Scalars

/-- Weights for two constraints whose vector `c` has a single entry. -/
noncomputable def truncated : WeightDraft ℝ :=
  { WeightDraft.default 2 with c := #[(1 : ℝ)] }

theorem truncated_weights_stop :
    0 < ((initial 1 1 : Optimizer ℝ 1).setConstraintCount 2).m ∧
    paired.sensitivities.g.size = ((initial 1 1 : Optimizer ℝ 1).setConstraintCount 2).m ∧
    paired.sensitivities.matched 1 = .ok paired.gradients ∧
    truncated.validate 2 = .error (.dimensionMismatch "weight c" 2 1) ∧
    ((((initial 1 1 : Optimizer ℝ 1).setConstraintCount 2).editWeights fun _ => truncated).update (.single 0)
        paired.sensitivities : Program ℝ (Cause ℝ) _) =
      .pure (((initial 1 1 : Optimizer ℝ 1).setConstraintCount 2).editWeights fun _ => truncated,
        .error { during := [], cause := .dimensionMismatch "weight c" 2 1 }) := by
  have refused : truncated.validate 2 = .error (.dimensionMismatch "weight c" 2 1) := rfl
  have weighs := update_weighs (ε := Cause ℝ) (o := (initial 1 1 : Optimizer ℝ 1).setConstraintCount 2)
    (.single 0) (show 0 < 2 from two_pos) rfl paired.matched truncated
  exact ⟨two_pos, rfl, paired.matched, refused, weighs.1 rfl _ refused⟩

section Replaced

open Session

/-- A single variable between its usual bounds, with the usual weights for two constraints but for their
vector `a`, which has a single entry. -/
noncomputable def short : Optimizer ℝ 1 :=
  { initial 1 1 with m := 2, weights := { WeightDraft.default 2 with a := #[(0 : ℝ)] } }

lemma log_short : ∃ log, Log 1 log short := by
  have counted : Log 1 _ _ := (Log.initial 1).call (.single 0)
    (show Program.Ends _ (Optimizer.perform _ _ (.setConstraintCount 2)) _ from .pure) rfl
  have edited : Log 1 _ _ := counted.call (.single 0)
    (show Program.Ends _ (Optimizer.perform _ _ (.editWeights fun w => { w with a := #[(0 : ℝ)] })) _ from .pure) rfl
  exact ⟨_, edited⟩

/-- Weights that the check refuses are replaced by others, with which the update succeeds. -/
theorem unfit_weights_replaced : ∃ log, ∃ o o' : Optimizer ℝ 1, ∃ rounds change, Log 1 log o ∧
    o.m = 2 ∧ paired.g.size = 2 ∧
    o.weights.validate 2 = .error (.dimensionMismatch "weight a" 2 1) ∧
    (o.update (.single rounds) paired.sensitivities : Program ℝ (Cause ℝ) _).serial =
      .done (o', .ok change) ∧
    o'.weights.size = 2 := by
  obtain ⟨log, hlog⟩ := log_short
  have misfit : short.weights.size ≠ short.m := by decide
  let usual : Optimizer ℝ 1 := short.editWeights fun _ => .default 2
  obtain ⟨rounds, step, change, -, updated, -⟩ := exists_update_serial (ε := Cause ℝ) (o := usual)
    (d := paired) (initial_configured 1 1).bounds (initial_contains 1 1) (initial_configured 1 1).settings
    (le_refl 2) (fun _ => WeightDraft.validate_default 2)
  have replaced : (short.update (.single rounds) paired.sensitivities : Program ℝ (Cause ℝ) _) =
      usual.update (.single rounds) paired.sensitivities :=
    update_of_replaced (o := short) (w := short.weights) (.single rounds) two_ne_zero rfl paired.matched misfit
  refine ⟨log, short, (usual.setConstraintCount 2).commit step change, rounds, change, hlog, rfl, rfl,
    WeightDraft.validate_of_misfit misfit, ?_, ?_⟩
  · rw [replaced]
    exact updated
  · obtain ⟨-, -, -, weights⟩ := (usual.setConstraintCount 2).settled_keeps (.ok (step, change))
    refine (congrArg WeightDraft.size weights).trans ?_
    rw [show usual.setConstraintCount 2 = usual from setConstraintCount_default short]
    exact Array.size_replicate

end Replaced

end Optimizer

end MovingAsymptotes
