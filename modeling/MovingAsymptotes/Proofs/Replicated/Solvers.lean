import MovingAsymptotes.Proofs.Distributed.InteriorPoint
import MovingAsymptotes.Proofs.Reduction.Abreast
import MovingAsymptotes.Subproblem

/-!
# Solves that the ranks of a group go through alike

What belongs to the constraints is kept by every rank, and the part of a state that is left when all
variables are taken out of it is the same on all ranks. Every decision of a solve looks at that part
alone or at a value that has been reduced: when a level is left, how a direction is found, how far a step
goes, when a line search ends. So the ranks stay abreast, whatever the arithmetic and whatever their own
variables, gradients and limits are.

* `BarrierMethod.Abreast.solve`: a descent of the barrier parameter.
* `Approximation.abreast_solve`: a solve by either backend.
-/

namespace MovingAsymptotes

variable {α : Type} {n n' m : Nat}

section Shared

/-- Without variables there are no entries to tell apart. -/
@[simp] lemma pick_elim0 (v : Vector α n) : pick Fin.elim0 v = #v[] :=
  vector_ext fun j => j.elim0

abbrev Approximation.shared (a : Approximation α n m) : Approximation α 0 m := a.part Fin.elim0

abbrev KktPoint.shared (w : KktPoint α n m) : KktPoint α 0 m := w.part Fin.elim0

abbrev DualPoint.shared (pt : DualPoint α n m) : DualPoint α 0 m := pt.part Fin.elim0

abbrev DualState.shared (s : DualState α n m) : DualState α 0 m := s.part Fin.elim0

abbrev NewtonBlocks.shared (k : NewtonBlocks α n m) : NewtonBlocks α 0 m := k.part Fin.elim0

abbrev CoreDirection.shared (core : CoreDirection α n m) : CoreDirection α 0 m := core.part Fin.elim0

/-- The shared part of a solution. The smallest multiplier on record is each rank's own. -/
def Solution.shared (sol : Solution α n m) : Solution α 0 m where
  point := sol.point.shared
  diagnostics := sol.diagnostics.withSeen none

variable [Scalar α] (a : Approximation α n m) (wt : Weights α m) (w dir : KktPoint α n m)

lemma DualPoint.shared_ofMultipliers (lambda : Vector α m) :
    (ofMultipliers a wt lambda).shared = ofMultipliers a.shared wt lambda :=
  (ofMultipliers_part _ a wt lambda).symm

lemma DualState.shared_toPoint (s : DualState α n m) :
    (s.toPoint a wt).shared = s.shared.toPoint a.shared wt :=
  (toPoint_part _ s a wt).symm

lemma NewtonBlocks.shared_ofPoint (epsi : α) (sums : Vector α m) :
    (ofPoint a wt w epsi sums).shared = ofPoint a.shared wt w.shared epsi sums :=
  (ofPoint_part _ a wt w epsi sums).symm

lemma NewtonBlocks.shared_complete (k : NewtonBlocks α n m) (epsi : α) (core : CoreDirection α n m) :
    (k.complete a w epsi core).shared = k.shared.complete a.shared w.shared epsi core.shared :=
  (complete_part _ a w epsi k core).symm

lemma KktPoint.shared_stepped (step : α) : (w.stepped dir step).shared = w.shared.stepped dir.shared step :=
  (stepped_part _ w dir step).symm

lemma Approximation.shared_interiorStart : (a.interiorStart wt).shared = a.shared.interiorStart wt :=
  (interiorStart_part _ a wt).symm

end Shared

variable [Scalar α]

namespace BarrierMethod

open Program (Abreast)

variable {σ σ' : Type} {Φ : σ → σ' → Prop} {M : BarrierMethod α σ} {M' : BarrierMethod α σ'}

/-- What a Newton step leads two ranks to agrees. -/
structure StepAlike (Φ : σ → σ' → Prop) (next : NewtonStep α σ) (next' : NewtonStep α σ') : Prop where
  state : Φ next.state next'.state
  residual : next.residual = next'.residual
  exhausted : next.exhausted = next'.exhausted

/-- Two ranks stay abreast in every residual and every Newton step, from states that agree. -/
structure Abreast (M : BarrierMethod α σ) (M' : BarrierMethod α σ') (Φ : σ → σ' → Prop) : Prop where
  cap : M.cap = M'.cap
  residual : ∀ {s s'}, Φ s s' → ∀ e, Program.Abreast Eq (M.residual s e) (M'.residual s' e)
  advance : ∀ {s s'}, Φ s s' → ∀ r e, Program.Abreast (StepAlike Φ) (M.advance s r e) (M'.advance s' r e)

/-- Two ranks have come equally far. -/
structure ProgressAlike (Φ : σ → σ' → Prop) (p : Progress α σ) (p' : Progress α σ') : Prop where
  state : Φ p.state p'.state
  residual : p.residual = p'.residual
  diagnostics : p.diagnostics.withSeen none = p'.diagnostics.withSeen none

lemma afterStep_withSeen (d : Diagnostics α) (next : NewtonStep α σ) :
    (d.afterStep next).withSeen none = (d.withSeen none).afterStep
      { state := (), residual := next.residual, seen := [], exhausted := next.exhausted } := rfl

lemma ProgressAlike.step {p : Progress α σ} {p' : Progress α σ'} {next : NewtonStep α σ}
    {next' : NewtonStep α σ'} (hp : ProgressAlike Φ p p') (hn : StepAlike Φ next next') :
    ProgressAlike Φ ⟨next.state, next.residual, p.diagnostics.afterStep next⟩
      ⟨next'.state, next'.residual, p'.diagnostics.afterStep next'⟩ where
  state := hn.state
  residual := hn.residual
  diagnostics := by
    rw [afterStep_withSeen, afterStep_withSeen, hp.diagnostics, hn.residual, hn.exhausted]

lemma Abreast.level (h : M.Abreast M' Φ) (epsi : α) (steps : Nat) {p : Progress α σ} {p' : Progress α σ'}
    (hp : ProgressAlike Φ p p') :
    Program.Abreast (ProgressAlike Φ) (M.level epsi steps p) (M'.level epsi steps p') := by
  induction steps generalizing p p' with
  | zero => exact .pure hp
  | succ steps ih =>
    unfold BarrierMethod.level
    rw [hp.residual]
    split
    · apply (h.advance hp.state p'.residual epsi).bind
      intro next next' hn
      exact ih (hp.step hn)
    · exact .pure hp

lemma Abreast.levels (h : M.Abreast M' Φ) (epsimin : α) (rounds : Nat) {epsi : α} {s : σ} {s' : σ'}
    {d d' : Diagnostics α} (hs : Φ s s') (hd : d.withSeen none = d'.withSeen none) :
    Program.Abreast (fun out out' => Φ out.1 out'.1 ∧ out.2.withSeen none = out'.2.withSeen none)
      (M.levels epsimin rounds epsi s d) (M'.levels epsimin rounds epsi s' d') := by
  induction rounds generalizing epsi s s' d d' with
  | zero =>
    unfold BarrierMethod.levels
    split
    · exact .unfinished
    · exact .pure ⟨hs, hd⟩
  | succ rounds ih =>
    unfold BarrierMethod.levels
    split
    · apply (h.residual hs epsi).bind
      rintro residual _ rfl
      rw [h.cap]
      apply (h.level epsi M'.cap ⟨hs, rfl, hd⟩).bind
      intro p p' hp
      apply ih hp.state
      show (p.diagnostics.withSeen none).afterLevel p.residual epsi =
        (p'.diagnostics.withSeen none).afterLevel p'.residual epsi
      rw [hp.diagnostics, hp.residual]
    · exact .pure ⟨hs, hd⟩

/-- Ranks that stay abreast in every step stay abreast in a solve. -/
theorem Abreast.solve (h : M.Abreast M' Φ) (epsimin : α) (rounds : Nat) {s : σ} {s' : σ'}
    (hs : Φ s s') :
    Program.Abreast (fun out out' => Φ out.1 out'.1 ∧ out.2.withSeen none = out'.2.withSeen none)
      (M.solve epsimin rounds s) (M'.solve epsimin rounds s') :=
  h.levels epsimin rounds hs rfl

end BarrierMethod

section Residual

variable {a : Approximation α n m} {a' : Approximation α n' m} {w : KktPoint α n m} {w' : KktPoint α n' m}

lemma Approximation.abreast_residual (ha : a.shared = a'.shared) (hw : w.shared = w'.shared)
    (wt : Weights α m) (epsi : α) : Program.Abreast Eq (a.residual wt w epsi) (a'.residual wt w' epsi) := by
  apply (Program.abreast_reduceAll _ _ _).bind
  rintro sums _ rfl
  apply (Program.abreast_reduceScalar _ _ _).bind
  rintro max _ rfl
  let rows (a : Approximation α 0 m) (w : KktPoint α 0 m) : List α :=
    sharedRows wt w.y w.mu w.lambda w.s w.z w.zet (a.violations wt w sums.pop) epsi
  have same : rows a.shared w.shared = rows a'.shared w'.shared := by rw [ha, hw]
  exact .pure (congrArg (fun rows => Residual.ofTallies sums[Fin.last m] max (Tally.ofRows rows)) same)

lemma Gradients.abreast_residual {d : Gradients α n m} {d' : Gradients α n' m} (hg : d.g = d'.g)
    (hw : w.shared = w'.shared) (x : Vector α n) (x' : Vector α n') (b : Bounds α n) (b' : Bounds α n')
    (wt : Weights α m) : Program.Abreast Eq (d.residual x b wt w) (d'.residual x' b' wt w') := by
  apply (Program.abreast_reduceScalar _ _ _).bind
  rintro squares _ rfl
  apply (Program.abreast_reduceScalar _ _ _).bind
  rintro max _ rfl
  let rows (g : Vector α m) (w : KktPoint α 0 m) : List α :=
    sharedRows wt w.y w.mu w.lambda w.s w.z w.zet
      (Vector.ofFn fun i : Fin m => g[i] - wt.a[i] * w.z - w.y[i] + w.s[i]) 0
  have same : rows d.g w.shared = rows d'.g w'.shared := by rw [hg, hw]
  exact .pure (congrArg (fun rows => Residual.ofTallies squares max (Tally.ofRows rows)) same)

end Residual

section Dual

variable {a : Approximation α n m} {a' : Approximation α n' m} (ha : a.shared = a'.shared)

lemma DualPoint.abreast_gradient {pt : DualPoint α n m} {pt' : DualPoint α n' m} (wt : Weights α m)
    (ha : a.shared = a'.shared) (hpt : pt.shared = pt'.shared) :
    Program.Abreast Eq (pt.gradient a wt) (pt'.gradient a' wt) := by
  apply (Program.abreast_reduceAll _ _ _).bind
  rintro sums _ rfl
  let value (a : Approximation α 0 m) (pt : DualPoint α 0 m) : Vector α m :=
    Vector.ofFn fun i => sums[i] - (a.b[i] + wt.a[i] * pt.z + pt.y[i])
  have same : value a.shared pt.shared = value a'.shared pt'.shared := by rw [ha, hpt]
  exact .pure same

lemma DualPoint.abreast_hessian {pt : DualPoint α n m} {pt' : DualPoint α n' m} (wt : Weights α m)
    (hpt : pt.shared = pt'.shared) (lambda : Vector α m) :
    Program.Abreast Eq (pt.hessian a wt lambda) (pt'.hessian a' wt lambda) := by
  have hz : pt.z = pt'.z := congrArg DualPoint.z hpt
  unfold DualPoint.hessian
  rw [hz]
  apply (Program.abreast_reduceAll _ _ _).bind
  rintro sums _ rfl
  exact .pure rfl

lemma DualState.abreast_ofMultipliers (wt : Weights α m) (ha : a.shared = a'.shared)
    (lambda eta : Vector α m) :
    Program.Abreast (fun s s' => s.shared = s'.shared) (DualState.ofMultipliers a wt lambda eta)
      (DualState.ofMultipliers a' wt lambda eta) := by
  have hpt : (DualPoint.ofMultipliers a wt lambda).shared = (DualPoint.ofMultipliers a' wt lambda).shared := by
    rw [DualPoint.shared_ofMultipliers, DualPoint.shared_ofMultipliers, ha]
  apply (DualPoint.abreast_gradient wt ha hpt).bind
  rintro gradient _ rfl
  exact .pure (congrArg (DualState.mk lambda eta · gradient) hpt)

lemma dualMethod_abreast (wt : Weights α m) (s : Settings α) (ha : a.shared = a'.shared) :
    (dualMethod a wt s).Abreast (dualMethod a' wt s) fun s s' => s.shared = s'.shared where
  cap := rfl
  residual {s s'} hs e := .pure (congrArg (fun s : DualState α 0 m => s.residual e) hs)
  advance {s s'} hs r e := by
    have hl : s.lambda = s'.lambda := congrArg DualState.lambda hs
    have he : s.eta = s'.eta := congrArg DualState.eta hs
    have hpt : s.point.shared = s'.point.shared := congrArg DualState.point hs
    show Program.Abreast _ (s.advance a wt e) (s'.advance a' wt e)
    unfold DualState.advance
    rw [hl]
    apply (DualPoint.abreast_hessian wt hpt s'.lambda).bind
    rintro hess _ rfl
    have hd : s.direction? hess e = s'.direction? hess e :=
      congrArg (fun s : DualState α 0 m => s.direction? hess e) hs
    rw [hd]
    cases s'.direction? hess e with
    | none => exact .fail
    | some direction =>
      obtain ⟨dlam, deta⟩ := direction
      have ht : s.stepLength dlam deta = s'.stepLength dlam deta :=
        congrArg (fun s : DualState α 0 m => s.stepLength dlam deta) hs
      dsimp only
      rw [ht, he]
      apply (DualState.abreast_ofMultipliers wt ha _ _).bind
      intro next next' hn
      exact .pure ⟨hn, congrArg (fun s : DualState α 0 m => s.residual e) hn, rfl⟩

theorem Approximation.abreast_solveDual (wt : Weights α m) (s : Settings α) (e : Execution)
    (ha : a.shared = a'.shared) :
    Program.Abreast (fun sol sol' => sol.shared = sol'.shared) (a.solveDual wt s e) (a'.solveDual wt s e) := by
  unfold Approximation.solveDual
  split
  · exact .fail
  · apply (DualState.abreast_ofMultipliers wt ha _ _).bind
    intro start start' hstart
    apply ((dualMethod_abreast wt s ha).solve s.epsimin e.rounds hstart).bind
    rintro ⟨state, d⟩ ⟨state', d'⟩ ⟨hs, hd⟩
    have hpt : (state.toPoint a wt).shared = (state'.toPoint a' wt).shared := by
      rw [DualState.shared_toPoint, DualState.shared_toPoint, ha]
      exact congrArg (DualState.toPoint · a'.shared wt) hs
    exact .pure (congrArg₂ Solution.mk hpt hd)

end Dual

section Interior

variable {a : Approximation α n m} {a' : Approximation α n' m} {w dir : KktPoint α n m}
  {w' dir' : KktPoint α n' m}

lemma NewtonBlocks.abreast_solveForMultipliers {k : NewtonBlocks α n m} {k' : NewtonBlocks α n' m}
    (hk : k.shared = k'.shared) (shares : Vector α m) :
    Program.Abreast (fun core core' => core.shared = core'.shared) (k.solveForMultipliers shares)
      (k'.solveForMultipliers shares) := by
  rw [solveForMultipliers_eq, solveForMultipliers_eq]
  apply (Program.abreast_reduceAll _ _ _).bind
  rintro moved _ rfl
  apply (Program.abreast_reduceAll _ _ _).bind
  rintro sums _ rfl
  have hsol : k.solveSums? shares moved sums = k'.solveSums? shares moved sums := by
    have diaglamyi : k.diaglamyi = k'.diaglamyi := congrArg NewtonBlocks.diaglamyi hk
    have diagz : k.diagz = k'.diagz := congrArg NewtonBlocks.diagz hk
    have delz : k.delz = k'.delz := congrArg NewtonBlocks.delz hk
    have dellamyi : k.dellamyi = k'.dellamyi := congrArg NewtonBlocks.dellamyi hk
    unfold solveSums?
    rw [diaglamyi, diagz, delz, dellamyi]
  rw [hsol]
  cases k'.solveSums? shares moved sums with
  | none => exact .fail
  | some solution =>
    obtain ⟨dlam, dz⟩ := solution
    refine .pure ?_
    unfold CoreDirection.shared CoreDirection.part
    rw [pick_elim0, pick_elim0]
    rfl

namespace Approximation

/-- In a group the direction is found by the elimination that serves every distribution. -/
lemma abreast_newtonDirection (ha : a.shared = a'.shared) (hw : w.shared = w'.shared) (wt : Weights α m)
    {e : Execution} (he : 1 < e.ranks) (epsi : α) :
    Program.Abreast (fun dir dir' => dir.shared = dir'.shared) (a.newtonDirection wt e w epsi)
      (a'.newtonDirection wt e w' epsi) := by
  apply (Program.abreast_reduceAll _ _ _).bind
  rintro sums _ rfl
  dsimp only
  rw [if_pos (.inl he), if_pos (.inl he)]
  have hk : (NewtonBlocks.ofPoint a wt w epsi sums).shared = (NewtonBlocks.ofPoint a' wt w' epsi sums).shared := by
    rw [NewtonBlocks.shared_ofPoint, NewtonBlocks.shared_ofPoint, ha, hw]
  apply (NewtonBlocks.abreast_solveForMultipliers hk wt.a).bind
  intro core core' hcore
  refine .pure ?_
  rw [NewtonBlocks.shared_complete, NewtonBlocks.shared_complete, hk, ha, hw, hcore]

lemma abreast_inverseStep (hw : w.shared = w'.shared) (hdir : dir.shared = dir'.shared) :
    Program.Abreast Eq (a.inverseStep w dir) (a'.inverseStep w' dir') := by
  apply (Program.abreast_reduceScalar _ _ _).bind
  rintro spread _ rfl
  let reach (w dir : KktPoint α 0 m) : α := (sharedOvershoots w dir).foldl larger spread
  have same : reach w.shared dir.shared = reach w'.shared dir'.shared := by rw [hw, hdir]
  exact .pure same

/-- All ranks see the residual of a trial step, so their line searches end together. -/
lemma abreast_backtrack (ha : a.shared = a'.shared) (hw : w.shared = w'.shared)
    (hdir : dir.shared = dir'.shared) (wt : Weights α m) (epsi norm : α) (more : Nat) (step : α) :
    Program.Abreast (fun next next' => next.1.shared = next'.1.shared ∧ next.2 = next'.2)
      (a.backtrack wt w dir epsi norm more step) (a'.backtrack wt w' dir' epsi norm more step) := by
  have trial : ∀ step, Program.Abreast (fun next next' => next.1.shared = next'.1.shared ∧ next.2 = next'.2)
      (a.trial wt w dir epsi step) (a'.trial wt w' dir' epsi step) := by
    intro step
    have hnext : (w.stepped dir step).shared = (w'.stepped dir' step).shared := by
      rw [KktPoint.shared_stepped, KktPoint.shared_stepped, hw, hdir]
    apply (abreast_residual ha hnext wt epsi).bind
    rintro residual _ rfl
    exact .pure ⟨hnext, rfl⟩
  induction more generalizing step with
  | zero => exact trial step
  | succ more ih =>
    unfold backtrack
    apply (trial step).bind
    rintro ⟨next, residual⟩ ⟨next', residual'⟩ ⟨hn, hr⟩
    obtain rfl : residual = residual' := hr
    dsimp only
    split
    · exact .pure ⟨hn, rfl⟩
    · exact ih (step * 0.5)

lemma interiorMethod_abreast (ha : a.shared = a'.shared) (wt : Weights α m) (s : Settings α)
    {e : Execution} (he : 1 < e.ranks) :
    (a.interiorMethod wt s e).Abreast (a'.interiorMethod wt s e) fun w w' => w.shared = w'.shared where
  cap := rfl
  residual hw epsi := abreast_residual ha hw wt epsi
  advance {w w'} hw r epsi := by
    apply (abreast_newtonDirection ha hw wt he epsi).bind
    intro dir dir' hdir
    apply (abreast_inverseStep hw hdir).bind
    rintro inverse _ rfl
    apply (abreast_backtrack ha hw hdir wt epsi r.norm _ _).bind
    rintro ⟨next, residual⟩ ⟨next', residual'⟩ ⟨hn, hr⟩
    obtain rfl : residual = residual' := hr
    exact .pure ⟨hn, rfl, rfl⟩

theorem abreast_solveInterior (ha : a.shared = a'.shared) (wt : Weights α m) (s : Settings α)
    {e : Execution} (he : 1 < e.ranks) :
    Program.Abreast (fun sol sol' => sol.shared = sol'.shared) (a.solveInterior wt s e)
      (a'.solveInterior wt s e) := by
  unfold solveInterior
  split
  · exact .fail
  · have hstart : (a.interiorStart wt).shared = (a'.interiorStart wt).shared := by
      rw [shared_interiorStart, shared_interiorStart, ha]
    apply ((interiorMethod_abreast ha wt s he).solve s.epsimin e.rounds hstart).bind
    rintro ⟨w, d⟩ ⟨w', d'⟩ ⟨hw, hd⟩
    exact .pure (congrArg₂ Solution.mk hw hd)

/-- The ranks of a group stay abreast in a solve by either backend. -/
theorem abreast_solve (ha : a.shared = a'.shared) (wt : Weights α m) (s : Settings α) {e : Execution}
    (he : 1 < e.ranks) :
    Program.Abreast (fun sol sol' => sol.shared = sol'.shared) (a.solve wt s e) (a'.solve wt s e) := by
  unfold solve
  cases s.method with
  | dualNewton => exact abreast_solveDual wt s e ha
  | primalDual => exact abreast_solveInterior ha wt s he

end Approximation

end Interior

end MovingAsymptotes
