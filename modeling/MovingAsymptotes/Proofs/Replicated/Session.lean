import MovingAsymptotes.Proofs.Distributed.Optimizer
import MovingAsymptotes.Proofs.Optimizer.Log
import MovingAsymptotes.Proofs.Replicated.Solvers
import MovingAsymptotes.Scalar.Double

/-!
# Sessions that the ranks of a group go through alike

The ranks of a group make the same calls. The values of the constraints, the weights and the settings
that they pass are the same; the gradients, the bounds and the designs are their own, and nothing is
asked of them. Over any arithmetic the ranks then take part in the same reductions, one after the other,
and call after call they give the same answers and keep the same record of the run.

* `Optimizer.abreast_update`, `Optimizer.abreast_kktCheck`: updates and checks of the conditions.
* `Session.ranks_abreast`: sessions, and what comes of them in a group.
-/

namespace MovingAsymptotes

open Program (Abreast)

variable {α : Type} {n n' m : Nat}

section Shared

lemma Bounds.part_elim0 (b : Bounds α n) : b.part Fin.elim0 = ⟨#v[], #v[]⟩ := by
  unfold Bounds.part
  rw [pick_elim0, pick_elim0]

lemma Asymptotes.part_elim0 (asy : Asymptotes α n) : asy.part Fin.elim0 = ⟨#v[], #v[]⟩ := by
  unfold Asymptotes.part
  rw [pick_elim0, pick_elim0]

lemma MoveLimits.part_elim0 (l : MoveLimits α n) : l.part Fin.elim0 = ⟨#v[], #v[]⟩ := by
  unfold MoveLimits.part
  rw [pick_elim0, pick_elim0]

lemma History.part_elim0 (h : History α n) : h.part Fin.elim0 = ⟨#v[], #v[], #v[]⟩ := by
  unfold History.part
  rw [pick_elim0, pick_elim0, pick_elim0]

abbrev Bracket.shared (b : Bracket α n) : Bracket α 0 := b.part Fin.elim0

abbrev CriteriaStep.shared (step : CriteriaStep α n) : CriteriaStep α 0 := step.part Fin.elim0

abbrev UpdateStep.shared (step : UpdateStep α n) : UpdateStep α 0 := step.part Fin.elim0 none

abbrev RecordedSolution.shared (found : RecordedSolution α n) : RecordedSolution α 0 :=
  found.part Fin.elim0 none

/-- The part of the state that all ranks keep: everything but the designs, bounds, asymptotes and limits,
the multipliers of those, and the smallest multiplier on record. -/
abbrev Optimizer.shared (o : Optimizer α n) : Optimizer α 0 := o.part Fin.elim0 none

end Shared

variable [Scalar α]

section Criteria

variable {p : CriteriaProblem α n} {p' : CriteriaProblem α n'}

namespace CriteriaProblem

lemma abreast_violation (hg : p.g = p'.g) (x : Vector α n) (x' : Vector α n') :
    Abreast Eq (p.violation x) (p'.violation x') := by
  apply (Program.abreast_reduceScalar _ _ _).bind
  rintro moved _ rfl
  exact .pure (congrArg (· + moved) hg)

/-- All ranks see the violations, so they halve the bracket alike. -/
lemma abreast_bisect (hg : p.g = p'.g) (s : CriteriaSettings α) (limits : MoveLimits α n)
    (limits' : MoveLimits α n') (rounds : Nat) {b : Bracket α n} {b' : Bracket α n'}
    (hb : b.shared = b'.shared) :
    Abreast (fun b b' => b.shared = b'.shared) (p.bisect s limits rounds b) (p'.bisect s limits' rounds b') := by
  induction rounds generalizing b b' with
  | zero =>
    have hlo : b.lo = b'.lo := congrArg Bracket.lo hb
    have hhi : b.hi = b'.hi := congrArg Bracket.hi hb
    unfold bisect
    rw [hlo, hhi]
    split
    · exact .unfinished
    · exact .pure hb
  | succ rounds ih =>
    have hlo : b.lo = b'.lo := congrArg Bracket.lo hb
    have hhi : b.hi = b'.hi := congrArg Bracket.hi hb
    have hcount : b.bisections = b'.bisections := congrArg Bracket.bisections hb
    unfold bisect
    rw [hlo, hhi]
    split
    · apply (abreast_violation hg _ _).bind
      rintro violation _ rfl
      apply ih
      unfold Bracket.shared Bracket.part
      simp only [pick_elim0, hcount]
    · exact .pure hb

theorem abreast_step (hg : p.g = p'.g) (s : CriteriaSettings α) (rounds : Nat) :
    Abreast (fun step step' => step.shared = step'.shared) (p.step s rounds) (p'.step s rounds) := by
  apply (abreast_violation hg _ _).bind
  rintro violation _ rfl
  split
  · split
    · exact .fail
    · refine .pure ?_
      unfold CriteriaStep.shared CriteriaStep.part
      simp only [pick_elim0, MoveLimits.part_elim0]
  · have start : (⟨0, s.lambdaUpper, s.lambdaUpper, p.candidate s (p.window s) s.lambdaUpper, 0⟩ :
        Bracket α n).shared =
        (⟨0, s.lambdaUpper, s.lambdaUpper, p'.candidate s (p'.window s) s.lambdaUpper, 0⟩ :
          Bracket α n').shared := by
      unfold Bracket.shared Bracket.part
      simp only [pick_elim0]
    apply (abreast_bisect hg s _ _ rounds start).bind
    intro b b' hb
    have hm : b.multiplier = b'.multiplier := congrArg Bracket.multiplier hb
    have hcount : b.bisections = b'.bisections := congrArg Bracket.bisections hb
    refine .pure ?_
    unfold CriteriaStep.shared CriteriaStep.part
    simp only [pick_elim0, MoveLimits.part_elim0, hm, hcount]

end CriteriaProblem

end Criteria

/-- The ranks build approximations with the same right-hand sides. -/
lemma Approximation.abreast_build {d : Gradients α n m} {d' : Gradients α n' m} (hg : d.g = d'.g)
    (x : Vector α n) (x' : Vector α n') (asy : Asymptotes α n) (asy' : Asymptotes α n')
    (limits : MoveLimits α n) (limits' : MoveLimits α n') (nGlobal : Nat) (s : Settings α) :
    Abreast (fun a a' => a.shared = a'.shared) (build x d asy limits nGlobal s)
      (build x' d' asy' limits' nGlobal s) := by
  apply (Program.abreast_reduceAll _ _ _).bind
  rintro sums _ rfl
  refine .pure ?_
  unfold Approximation.shared Approximation.part
  simp only [pick_elim0, Asymptotes.part_elim0, MoveLimits.part_elim0, hg]
  rfl

/-- The ranks find the multipliers of the same number of constraints on record. -/
lemma Evaluation.abreast_residual {d : Evaluation α n} {d' : Evaluation α n'} (hg : d.g = d'.g)
    {found : RecordedSolution α n} {found' : RecordedSolution α n'} (hfound : found.shared = found'.shared)
    (draft : WeightDraft α) (x : Vector α n) (x' : Vector α n') (b : Bounds α n) (b' : Bounds α n') :
    Abreast Eq (d.sensitivities.residual x b draft found.solution.point)
      (d'.sensitivities.residual x' b' draft found'.solution.point) := by
  obtain ⟨dfdx, g, dgdx⟩ := d
  obtain ⟨dfdx', g', dgdx'⟩ := d'
  obtain rfl : g = g' := hg
  obtain ⟨k, sol⟩ := found
  obtain ⟨k', sol'⟩ := found'
  obtain rfl : k = k' := congrArg RecordedSolution.m hfound
  have hpoint : sol.point.shared = sol'.point.shared := by
    injection hfound with _ hsol
    exact congrArg Solution.point hsol
  by_cases hm : k = g.size
  · cases hwt : draft.leading? g.size with
    | none =>
      rw [residual_of_unfit _ hm hwt, residual_of_unfit _ hm hwt]
      exact .fail
    | some wt =>
      rw [residual_of_fit _ hm hwt, residual_of_fit _ hm hwt]
      have hcast : (sol.point.cast rfl hm).shared = (sol'.point.cast rfl hm).shared := by
        rw [KktPoint.shared, KktPoint.shared, ← KktPoint.cast_part, ← KktPoint.cast_part]
        exact congrArg (KktPoint.cast rfl hm) hpoint
      have values : (gradients ⟨dfdx, g, dgdx⟩).g = (gradients ⟨dfdx', g, dgdx'⟩).g := rfl
      exact Gradients.abreast_residual values hcast x x' b b' wt
  · rw [residual_of_mismatch _ hm, residual_of_mismatch _ hm]
    exact .fail

namespace Optimizer

variable {o : Optimizer α n} {o' : Optimizer α n'} {e : Execution}

section Step

variable {d : Gradients α n m} {d' : Gradients α n' m} (ho : o.shared = o'.shared) (hg : d.g = d'.g)
include ho hg

lemma abreast_criteriaStep (hm : 0 < m) :
    Abreast (fun step step' => step.shared = step'.shared) (o.criteriaStep e d hm) (o'.criteriaStep e d' hm) := by
  have hs : o.settings = o'.settings := congrArg Optimizer.settings ho
  unfold criteriaStep
  rw [hs]
  exact CriteriaProblem.abreast_step (congrArg (fun g : Vector α m => g.get ⟨0, hm⟩) hg) _ _

lemma abreast_subproblemStep (he : 1 < e.ranks) (wt : Weights α m) :
    Abreast (fun step step' => step.shared = step'.shared) (o.subproblemStep e d wt)
      (o'.subproblemStep e d' wt) := by
  have hs : o.settings = o'.settings := congrArg Optimizer.settings ho
  have hn : o.nGlobal = o'.nGlobal := congrArg Optimizer.nGlobal ho
  unfold subproblemStep
  rw [hs, hn]
  apply ((Approximation.abreast_build hg _ _ _ _ _ _ _ _).mapError _).bind
  intro a a' ha
  apply ((Approximation.abreast_solve ha wt _ he).mapError _).bind
  intro sol sol' hsol
  refine .pure ?_
  unfold UpdateStep.shared UpdateStep.part
  simp only [Asymptotes.part_elim0, MoveLimits.part_elim0]
  exact congrArg (fun sol => UpdateStep.subproblem ⟨#v[], #v[]⟩ ⟨#v[], #v[]⟩ ⟨m, sol⟩) hsol

lemma abreast_step (he : 1 < e.ranks) (hm : 0 < m) (wt : Weights α m) :
    Abreast (fun step step' => step.shared = step'.shared) (o.step e d hm wt) (o'.step e d' hm wt) := by
  have hi : o.iteration = o'.iteration := congrArg Optimizer.iteration ho
  unfold step
  rw [hi]
  split
  · apply ((abreast_criteriaStep ho hg hm).mapError _).bind
    intro step step' hstep
    exact .pure (congrArg UpdateStep.criteria hstep)
  · exact (abreast_subproblemStep ho hg he wt).mapError _

lemma abreast_attemptUpdate (he : 1 < e.ranks) (hm : 0 < m) (wt : Weights α m) :
    Abreast (fun found found' => found.1.shared = found'.1.shared ∧ found.2 = found'.2)
      (o.attemptUpdate e d hm wt) (o'.attemptUpdate e d' hm wt) := by
  apply (abreast_step ho hg he hm wt).bind
  intro step step' hstep
  apply ((Program.abreast_reduceScalar _ _ _).mapError _).bind
  rintro change _ rfl
  exact .pure ⟨hstep, rfl⟩

end Step

section Calls

variable {ε : Type}

lemma shared_setConstraintCount (o : Optimizer α n) (k : Nat) :
    (o.setConstraintCount k).shared = o.shared.setConstraintCount k :=
  (setConstraintCount_part _ _ o k).symm

lemma shared_commit (o : Optimizer α n) (step : UpdateStep α n) (change : α) :
    (o.commit step change).shared = o.shared.commit step.shared change :=
  (commit_part _ none o step change none).symm

/-- The ranks stay abreast in an update. -/
theorem abreast_update (ho : o.shared = o'.shared) (he : 1 < e.ranks) {d : Evaluation α n}
    {d' : Evaluation α n'} (hg : d.g = d'.g) :
    Abreast (fun next next' => next.1.shared = next'.1.shared ∧ next.2 = next'.2)
      (o.update e d.sensitivities : Program α ε _) (o'.update e d'.sensitivities) := by
  obtain ⟨dfdx, g, dgdx⟩ := d
  obtain ⟨dfdx', g', dgdx'⟩ := d'
  obtain rfl : g = g' := hg
  let d : Evaluation α n := ⟨dfdx, g, dgdx⟩
  let d' : Evaluation α n' := ⟨dfdx', g, dgdx'⟩
  have hcount : (o.setConstraintCount g.size).shared = (o'.setConstraintCount g.size).shared := by
    rw [shared_setConstraintCount, shared_setConstraintCount, ho]
  have hw : (o.setConstraintCount g.size).weights = (o'.setConstraintCount g.size).weights :=
    congrArg Optimizer.weights hcount
  by_cases hm : g.size = 0
  · rw [update_of_empty e hm, update_of_empty e hm]
    exact .pure ⟨ho, rfl⟩
  cases hwt : (o.setConstraintCount g.size).weights.validate g.size with
  | error cause =>
    rw [update_of_refused e hm d.matched hwt, update_of_refused e hm d'.matched (hw ▸ hwt)]
    exact .pure ⟨hcount, rfl⟩
  | ok wt =>
    rw [update_of_accepted e hm d.matched hwt, update_of_accepted e hm d'.matched (hw ▸ hwt)]
    have values : d.gradients.g = d'.gradients.g := rfl
    have attempted := abreast_attemptUpdate hcount values he (Nat.pos_of_ne_zero hm) wt
    apply attempted.attempt.bind
    intro result result' halike
    refine .pure ?_
    cases halike with
    | error => exact ⟨hcount, rfl⟩
    | @ok found found' hfound =>
      obtain ⟨step, change⟩ := found
      obtain ⟨step', change'⟩ := found'
      obtain ⟨hstep, hchange⟩ := hfound
      obtain rfl : change = change' := hchange
      refine ⟨?_, rfl⟩
      show (commit _ step change).shared = (commit _ step' change).shared
      rw [shared_commit, shared_commit, hcount]
      exact congrArg (commit _ · change) hstep

/-- The ranks stay abreast in a check of the optimality conditions. -/
theorem abreast_kktCheck (ho : o.shared = o'.shared) {d : Evaluation α n} {d' : Evaluation α n'}
    (hg : d.g = d'.g) :
    Abreast Eq (o.kktCheck d.sensitivities : Program α ε _) (o'.kktCheck d'.sensitivities) := by
  have hlast : o.lastSolution.map RecordedSolution.shared = o'.lastSolution.map RecordedSolution.shared :=
    congrArg Optimizer.lastSolution ho
  have hw : o.weights = o'.weights := congrArg Optimizer.weights ho
  unfold kktCheck
  rw [hw]
  cases hfound : o.lastSolution with
  | none =>
    rw [hfound] at hlast
    rw [Option.map_eq_none_iff.1 hlast.symm]
    exact .pure rfl
  | some found =>
    rw [hfound] at hlast
    obtain ⟨found', hfound', hshared⟩ := Option.map_eq_some_iff.1 hlast.symm
    rw [hfound']
    apply ((Evaluation.abreast_residual hg hshared.symm _ _ _ _ _).mapError _).attempt.mono
    rintro _ _ (⟨rfl⟩ | _)
    · rfl
    · rfl

end Calls

end Optimizer

namespace Session

/-- Two ranks make the same call. The values of the constraints are the same in an evaluation, but each
rank has bounds, designs and gradients of its own. -/
inductive Call.Alike (n n' : Nat) : Call α → Call α → Prop
  | setConstraintCount (m : Nat) : Alike n n' (.setConstraintCount m) (.setConstraintCount m)
  | editWeights (edit : WeightDraft α → WeightDraft α) : Alike n n' (.editWeights edit) (.editWeights edit)
  | configure (settings : Settings α) : Alike n n' (.configure settings) (.configure settings)
  | setBounds (lower upper lower' upper' : Array α) :
    Alike n n' (.setBounds lower upper) (.setBounds lower' upper')
  | setDesign (x x' : Array α) : Alike n n' (.setDesign x) (.setDesign x')
  | update {d : Evaluation α n} {d' : Evaluation α n'} : d.g = d'.g →
    Alike n n' (.update d.sensitivities) (.update d'.sensitivities)
  | kktCheck {d : Evaluation α n} {d' : Evaluation α n'} : d.g = d'.g →
    Alike n n' (.kktCheck d.sensitivities) (.kktCheck d'.sensitivities)

/-- The call places bounds or a design, which each rank checks for itself. -/
inductive Call.Places : Call α → Prop
  | bounds (lower upper : Array α) : Places (.setBounds lower upper)
  | design (x : Array α) : Places (.setDesign x)

/-- The answers to a call agree, unless it places something, and the states that it leaves share all that
belongs to every rank. -/
structure Entry.Alike (call : Call α) (entry : Entry α n) (entry' : Entry α n') : Prop where
  reply : ¬ call.Places → entry.reply = entry'.reply
  state : entry.state.map Optimizer.shared = entry'.state.map Optimizer.shared

/-- Two ranks have made equally many of the calls of a session, with entries that agree. -/
inductive EntriesAlike : List (Call α) → List (Entry α n) → List (Entry α n') → Prop
  | nil {calls} : EntriesAlike calls [] []
  | cons {call calls entry entry' entries entries'} : Entry.Alike call entry entry' →
    EntriesAlike calls entries entries' → EntriesAlike (call :: calls) (entry :: entries) (entry' :: entries')

end Session

namespace Optimizer

open Session

variable {ε : Type} {o o₁ : Optimizer α n} {o' : Optimizer α n'} {e : Execution}

omit [Scalar α] in
lemma shared_settle {found : Except (Cause α) (Optimizer α n)} (reply : Reply α)
    (h : ∀ o₁, found = .ok o₁ → o₁.shared = o.shared) :
    (o.settle reply found).state.map Optimizer.shared = some o.shared := by
  cases found with
  | ok o₁ => exact congrArg some (h o₁ rfl)
  | error cause => rfl

omit [Scalar α] in
lemma alike_of_weights (ho : o.shared = o'.shared) (call : Call α) :
    Entry.Alike call { reply := .ok (.weights o.weights), state := some o }
      { reply := .ok (.weights o'.weights), state := some o' } where
  reply _ := congrArg (fun o : Optimizer α 0 => Except.ok (Reply.weights o.weights)) ho
  state := congrArg some ho

/-- Bounds, designs, asymptotes and limits are no part of what the ranks share. -/
lemma shared_setBounds {lower upper : Array α} (h : o.setBounds lower upper = .ok o₁) :
    o₁.shared = o.shared := by
  obtain ⟨b, -, rfl⟩ := setBounds_eq_ok h
  unfold shared Optimizer.part
  simp only [Bounds.part_elim0, Asymptotes.part_elim0, MoveLimits.part_elim0]

lemma shared_setDesign {x : Array α} (h : o.setDesign x = .ok o₁) : o₁.shared = o.shared := by
  obtain ⟨v, -, rfl⟩ := setDesign_eq_ok h
  unfold shared Optimizer.part
  simp only [History.part_elim0]

lemma alike_withSettings (ho : o.shared = o'.shared) (settings : Settings α) :
    Alike (fun o o' => o.shared = o'.shared) (o.withSettings settings) (o'.withSettings settings) := by
  unfold withSettings
  cases settings.validate with
  | ok => exact .ok (congrArg (fun o => { o with settings }) ho)
  | error fault => exact .error

/-- The ranks stay abreast in a call. -/
theorem abreast_perform (ho : o.shared = o'.shared) (he : 1 < e.ranks) {call call' : Call α}
    (hcall : Call.Alike n n' call call') :
    Abreast (Entry.Alike call) (o.perform e call : Program α ε _) (o'.perform e call') := by
  cases hcall with
  | setConstraintCount m =>
    have hcount : (o.setConstraintCount m).shared = (o'.setConstraintCount m).shared := by
      rw [shared_setConstraintCount, shared_setConstraintCount, ho]
    exact .pure (alike_of_weights hcount _)
  | editWeights edit =>
    have hedit : (o.editWeights edit).shared = (o'.editWeights edit).shared :=
      congrArg (Optimizer.editWeights · edit) ho
    exact .pure (alike_of_weights hedit _)
  | configure settings =>
    have hconf := alike_withSettings ho settings
    unfold perform
    dsimp only
    generalize o.withSettings settings = found, o'.withSettings settings = found' at hconf ⊢
    cases hconf with
    | ok h =>
      refine .pure ⟨fun _ => ?_, congrArg some h⟩
      exact congrArg (fun o : Optimizer α 0 => Except.ok (Reply.settings o.settings)) h
    | error => exact .pure ⟨fun _ => rfl, rfl⟩
  | setBounds lower upper lower' upper' =>
    refine .pure ⟨fun h => absurd (.bounds lower upper) h, ?_⟩
    rw [shared_settle _ fun _ => shared_setBounds, shared_settle _ fun _ => shared_setBounds, ho]
  | setDesign x x' =>
    refine .pure ⟨fun h => absurd (.design x) h, ?_⟩
    rw [shared_settle _ fun _ => shared_setDesign, shared_settle _ fun _ => shared_setDesign, ho]
  | update hg =>
    apply (abreast_update ho he hg).bind
    rintro ⟨next, change⟩ ⟨next', change'⟩ ⟨hnext, hchange⟩
    obtain rfl : change = change' := hchange
    exact .pure ⟨fun _ => rfl, congrArg some hnext⟩
  | kktCheck hg =>
    apply (abreast_kktCheck ho hg).bind
    rintro residual _ rfl
    exact .pure ⟨fun _ => rfl, congrArg some ho⟩

/-- The ranks stay abreast in a session, and a call that closes it on one rank closes it on all. -/
theorem abreast_session (ho : o.shared = o'.shared) (he : 1 < e.ranks) {calls calls' : List (Call α)}
    (hcalls : List.Forall₂ (Call.Alike n n') calls calls') :
    Abreast (EntriesAlike calls) (o.session e calls : Program α ε _) (o'.session e calls') := by
  induction hcalls generalizing o o' with
  | nil => exact .pure .nil
  | cons hcall _ ih =>
    apply (abreast_perform ho he hcall).bind
    intro entry entry' hentry
    have hstate := hentry.state
    cases hnext : entry.state with
    | none =>
      rw [hnext] at hstate
      rw [Option.map_eq_none_iff.1 hstate.symm]
      exact .pure (.cons hentry .nil)
    | some next =>
      rw [hnext] at hstate
      obtain ⟨next', hnext', hshared⟩ := Option.map_eq_some_iff.1 hstate.symm
      rw [hnext']
      apply (ih hshared.symm).bind
      intro rest rest' hrest
      exact .pure (.cons hentry hrest)

lemma shared_initial (n nGlobal : Nat) : (initial n nGlobal : Optimizer α n).shared = initial 0 nGlobal :=
  initial_part _ none nGlobal

lemma abreast_start (nGlobal : Nat) (settings : Settings α) :
    Abreast (fun o o' => o.shared = o'.shared) (start n nGlobal settings) (start n' nGlobal settings) := by
  have created : Abreast (fun o o' => o.shared = o'.shared) (create n nGlobal : Program α (Cause α) _)
      (create n' nGlobal) := by
    apply (Program.abreast_reduceScalar _ _ _).bind
    rintro total _ rfl
    split
    · exact .pure ((shared_initial n nGlobal).trans (shared_initial n' nGlobal).symm)
    · exact .fail
  apply created.bind
  intro o o' ho
  have hconf := alike_withSettings ho settings
  generalize o.withSettings settings = found, o'.withSettings settings = found' at hconf ⊢
  cases hconf with
  | ok h => exact .pure h
  | error => exact .fail

lemma session_length_le (o : Optimizer α n) (e : Execution) (calls : List (Call α)) :
    (o.session e calls : Program α ε _).Ensures .any fun entries => entries.length ≤ calls.length := by
  induction calls generalizing o with
  | nil => exact Nat.zero_le 0
  | cons call later ih =>
    refine Program.ensures_bind fun entry => ?_
    cases entry.state with
    | none => exact Nat.le_add_left 1 later.length
    | some next => exact (ih next).bind fun entries h => Nat.succ_le_succ h

end Optimizer

namespace Session

open Optimizer

omit [Scalar α] in
lemma EntriesAlike.refl {calls : List (Call α)} {entries : List (Entry α n)}
    (h : entries.length ≤ calls.length) : EntriesAlike calls entries entries := by
  induction entries generalizing calls with
  | nil => exact .nil
  | cons entry entries ih =>
    cases calls with
    | nil => exact absurd h (Nat.not_succ_le_zero _)
    | cons call calls => exact .cons ⟨fun _ => rfl, rfl⟩ (ih (Nat.le_of_succ_le_succ h))

/-- The work of a rank with `n` of `nGlobal` variables: it starts with the settings and makes the calls
in turn. -/
def work (n nGlobal : Nat) (settings : Settings α) (e : Execution) (calls : List (Call α)) :
    Program α (Cause α) (List (Entry α n)) := do
  let o ← start n nGlobal settings
  o.session e calls

/-- The ranks of a group stay abreast, whatever the arithmetic, the distribution of the variables, the
gradients, the bounds and the designs. Whatever replies they get, the same ones lead them to the same
reductions. So the group never gets stuck: its ranks come to ends that agree, call after call, or run
out of rounds together. -/
theorem ranks_abreast {R : Nat} (n : Fin (R + 1) → Nat) (nGlobal : Nat) (settings : Settings α)
    (rounds : Nat) (calls : Fin (R + 1) → List (Call α))
    (hcalls : ∀ r r', List.Forall₂ (Call.Alike (n r) (n r')) (calls r) (calls r')) :
    (∀ r r', Abreast (EntriesAlike (calls r))
      (work (n r) nGlobal settings { ranks := R + 1, rounds } (calls r))
      (work (n r') nGlobal settings { ranks := R + 1, rounds } (calls r'))) ∧
    ∃ o : ∀ r, Outcome (Cause α) (List (Entry α (n r))),
      Program.outcomes (fun r => work (n r) nGlobal settings { ranks := R + 1, rounds } (calls r)) =
        some (List.ofFn fun r => (o r).andThen fun entries => .done ⟨r, entries⟩) ∧
      ∀ r r', (o r).Alike (EntriesAlike (calls r)) (o r') := by
  have abreast : ∀ r r', Abreast (EntriesAlike (calls r))
      (work (n r) nGlobal settings { ranks := R + 1, rounds } (calls r))
      (work (n r') nGlobal settings { ranks := R + 1, rounds } (calls r')) := by
    intro r r'
    cases R with
    | zero =>
      obtain rfl : r = r' := Subsingleton.elim (α := Fin 1) r r'
      exact (Program.ensures_bind fun o => o.session_length_le _ (calls r)).abreast fun _ => EntriesAlike.refl
    | succ R =>
      apply (abreast_start nGlobal settings).bind
      intro o o' ho
      exact abreast_session ho (Nat.succ_lt_succ R.succ_pos) (hcalls r r')
  obtain ⟨o, ho, halike⟩ := Program.exists_inStep abreast
  exact ⟨abreast, o, ho.outcomes_eq, halike⟩

/-- Two constraints with the values -1 and 0, and the same slopes for all variables of a rank. -/
def evenSlopes (n : Nat) (slope : Float) : Evaluation Float n where
  dfdx := Vector.replicate n slope
  g := #[-1, 0]
  dgdx := Vector.replicate n #v[slope, -slope]

/-- Three ranks, one of them without variables, whose bounds and gradients differ. -/
theorem ranks_abreast_with_empty_rank :
    ∃ (slope : Fin 3 → Float) (calls : Fin 3 → List (Call Float)), slope = ![1, 0, -3] ∧
      calls = (fun r => [.setBounds (Array.replicate (![1, 0, 2] r) (slope r - 1))
          (Array.replicate (![1, 0, 2] r) (slope r + 1)),
        .update (evenSlopes (![1, 0, 2] r) (slope r)).sensitivities,
        .kktCheck (evenSlopes (![1, 0, 2] r) (slope r)).sensitivities]) ∧
      ∃ o : ∀ r : Fin 3, Outcome (Cause Float) (List (Entry Float (![1, 0, 2] r))),
        Program.outcomes (fun r => work (![1, 0, 2] r) 3 .default { ranks := 3, rounds := 100 } (calls r)) =
          some (List.ofFn fun r => (o r).andThen fun entries => .done ⟨r, entries⟩) ∧
        ∀ r r', (o r).Alike (EntriesAlike (calls r)) (o r') := by
  refine ⟨_, _, rfl, rfl, (ranks_abreast ![1, 0, 2] 3 .default 100 _ fun r r' => ?_).2⟩
  exact .cons (.setBounds _ _ _ _) (.cons (.update rfl) (.cons (.kktCheck rfl) .nil))

end Session

end MovingAsymptotes
