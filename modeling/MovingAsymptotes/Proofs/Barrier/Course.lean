import Mathlib
import MovingAsymptotes.Barrier
import MovingAsymptotes.Proofs.Exact
import MovingAsymptotes.Proofs.Reduction.Group

/-!
# The course of a barrier descent

What a group of ranks goes through in a solve, level by level and step by step, and what becomes of the record
on the way. The states are those of the ranks; the residuals and the ends of the line searches are the same on
every rank. A residual on record is always the one that the ranks find at the states it belongs to.

* `BarrierMethod.Climbs`, `BarrierMethod.Descends`: the steps of a level and the levels of a solve.
* `Descends.isLeast_length`: the number of levels.
* `Climbs.length_le`, `Climbs.length_eq`: the number of steps of a level.
* `Descends.steps_eq_nil_iff`: the descents without a step.
* `Level.foldl_record`: the record, in terms of the levels.
-/

namespace MovingAsymptotes

/-- The programs of a group, run together, come to the given results. -/
def Program.Yield {ε : Type} {R : Nat} {β : Fin (R + 1) → Type} (p : ∀ r, Program ℝ ε (β r)) (b : ∀ r, β r) :
    Prop :=
  Program.outcomes p = some (List.ofFn fun r => .done ⟨r, b r⟩)

/-- The programs of a group come to one result each. -/
lemma Program.Yield.unique {ε : Type} {R : Nat} {β : Fin (R + 1) → Type} {p : ∀ r, Program ℝ ε (β r)}
    {b b' : ∀ r, β r} (h : Program.Yield p b) (h' : Program.Yield p b') : b = b' := by
  have same := List.ofFn_injective (Option.some.inj (h.symm.trans h'))
  funext r
  have hr := congrFun same r
  injection hr with hr
  exact eq_of_heq (Sigma.mk.inj hr).2

namespace BarrierMethod

variable {R : Nat} {σ : Fin (R + 1) → Type}

/-- A Newton step of all ranks. -/
structure JointStep (σ : Fin (R + 1) → Type) where
  state : ∀ r, σ r
  residual : Residual ℝ
  /-- The multipliers that each rank sees. -/
  seen : Fin (R + 1) → List ℝ
  exhausted : Bool

/-- What a rank has of a step. -/
def JointStep.own (step : JointStep σ) (r : Fin (R + 1)) : NewtonStep ℝ (σ r) where
  state := step.state r
  residual := step.residual
  seen := step.seen r
  exhausted := step.exhausted

/-- A level that the ranks have gone through. -/
structure Level (σ : Fin (R + 1) → Type) where
  epsi : ℝ
  /-- The residual that the level is entered with. -/
  entry : Residual ℝ
  steps : List (JointStep σ)
  /-- The residual that the level is left with. -/
  residual : Residual ℝ

namespace Level

/-- A level left with a residual still too large. -/
def Capped (l : Level σ) : Prop := l.residual.Exceeds l.epsi

noncomputable instance (l : Level σ) : Decidable l.Capped := inferInstanceAs (Decidable (l.residual.Exceeds l.epsi))

/-- The residual norms of the points of a level, each accepted by a line search but the first. -/
def norms (l : Level σ) : List ℝ := (l.entry :: l.steps.map JointStep.residual).map Residual.norm

/-- The record of a rank after the level. -/
noncomputable def record (l : Level σ) (r : Fin (R + 1)) (d : Diagnostics ℝ) : Diagnostics ℝ :=
  (l.steps.foldl (fun d step => d.afterStep (step.own r)) d).afterLevel l.residual l.epsi

end Level

/-- The record of a rank that has gone through the levels. -/
noncomputable def recordOf (levels : List (Level σ)) (r : Fin (R + 1)) : Diagnostics ℝ :=
  levels.foldl (fun d l => l.record r d) .initial

/-- The residual of the states, as the ranks find it together. -/
def Measured (m : ∀ r, BarrierMethod ℝ (σ r)) (e : ℝ) (s : ∀ r, σ r) (res : Residual ℝ) : Prop :=
  Program.Yield (fun r => (m r).residual (s r) e) fun _ => res

/-- The ranks take a step together, from states with a residual. -/
def Stepped (m : ∀ r, BarrierMethod ℝ (σ r)) (e : ℝ) (s : ∀ r, σ r) (res : Residual ℝ)
    (next : JointStep σ) : Prop :=
  Program.Yield (fun r => (m r).advance (s r) res e) next.own

/-- Newton steps of a level with at most as many as given, from states with a residual to others. -/
inductive Climbs (m : ∀ r, BarrierMethod ℝ (σ r)) (e : ℝ) :
    Nat → (∀ r, σ r) → Residual ℝ → List (JointStep σ) → (∀ r, σ r) → Residual ℝ → Prop where
  /-- No step is left. -/
  | capped {s res} : Climbs m e 0 s res [] s res
  /-- The residual is small enough. -/
  | settled {k s res} : ¬ res.Exceeds e → Climbs m e k s res [] s res
  /-- A step is taken. -/
  | step {k s res next steps s' res'} : res.Exceeds e →
    Stepped m e s res next → Measured m e next.state next.residual →
    Climbs m e k next.state next.residual steps s' res' → Climbs m e (k + 1) s res (next :: steps) s' res'

/-- Levels for decreasing barrier parameters, with at most `cap` steps each. -/
inductive Descends (m : ∀ r, BarrierMethod ℝ (σ r)) (cap : Nat) (epsimin : ℝ) :
    ℝ → (∀ r, σ r) → List (Level σ) → (∀ r, σ r) → Prop where
  /-- The parameter is small enough. -/
  | stop {e s} : ¬ epsimin < e → Descends m cap epsimin e s [] s
  /-- A level is gone through. -/
  | level {e s entry steps s₁ res levels s'} : epsimin < e → Measured m e s entry →
    Climbs m e cap s entry steps s₁ res → Descends m cap epsimin (e * 0.1) s₁ levels s' →
    Descends m cap epsimin e s (⟨e, entry, steps, res⟩ :: levels) s'

section Climb

variable {m : ∀ r, BarrierMethod ℝ (σ r)} {e : ℝ} {k : Nat} {s s' : ∀ r, σ r} {res res' : Residual ℝ}
  {steps : List (JointStep σ)}

lemma Climbs.length_le (h : Climbs m e k s res steps s' res') : steps.length ≤ k := by
  induction h with
  | capped => exact le_refl 0
  | settled _ => exact Nat.zero_le _
  | step _ _ _ _ ih => exact Nat.succ_le_succ ih

/-- A level is left with a residual too large only once all its steps are taken. -/
lemma Climbs.length_eq (h : Climbs m e k s res steps s' res') (hx : res'.Exceeds e) : steps.length = k := by
  induction h with
  | capped => rfl
  | settled hn => exact absurd hx hn
  | step _ _ _ _ ih => exact congrArg Nat.succ (ih hx)

/-- The residual that a level is left with is that of the states it is left with. -/
lemma Climbs.measured (h : Climbs m e k s res steps s' res') (hs : Measured m e s res) :
    Measured m e s' res' := by
  induction h with
  | capped => exact hs
  | settled _ => exact hs
  | step _ _ hn _ ih => exact ih hn

/-- A level is left where it is entered, or where one of its steps leads to. -/
lemma Climbs.arrives (h : Climbs m e k s res steps s' res') :
    (steps = [] ∧ s' = s) ∨ ∃ last ∈ steps, last.state = s' := by
  induction h with
  | capped => exact .inl ⟨rfl, rfl⟩
  | settled _ => exact .inl ⟨rfl, rfl⟩
  | @step _ _ _ next _ _ _ _ _ _ _ ih =>
    obtain ⟨-, rfl⟩ | ⟨last, hl, hs⟩ := ih
    · exact .inr ⟨next, List.mem_cons_self, rfl⟩
    · exact .inr ⟨last, List.mem_cons_of_mem _ hl, hs⟩

/-- A level is left at once exactly if its first residual is not too large. -/
lemma Climbs.eq_nil_iff (h : Climbs m e k s res steps s' res') (hk : k ≠ 0) :
    steps = [] ↔ ¬ res.Exceeds e := by
  cases h with
  | capped => exact absurd rfl hk
  | settled hn => exact iff_of_true rfl hn
  | step hx _ _ _ => exact iff_of_false (List.cons_ne_nil _ _) (not_not_intro hx)

/-- A level without a step is left where it is entered. -/
lemma Climbs.eq_of_nil (h : Climbs m e k s res [] s' res') : s' = s := by
  cases h with
  | capped => rfl
  | settled _ => rfl

/-- What holds of every Newton step holds of those of a level. -/
lemma Climbs.forall_steps {Q : JointStep σ → Prop} (h : Climbs m e k s res steps s' res')
    (hQ : ∀ s res next, Stepped m e s res next → Q next) :
    ∀ next ∈ steps, Q next := by
  induction h with
  | capped => exact nofun
  | settled _ => exact nofun
  | step _ hn _ _ ih => exact List.forall_mem_cons.2 ⟨hQ _ _ _ hn, ih⟩

/-- If no line search of a level ends on its cap, the residual norm does not grow on the way. -/
lemma Climbs.pairwise_norms (h : Climbs m e k s res steps s' res')
    (hstep : ∀ s res next, Stepped m e s res next → next.exhausted = false → next.residual.norm ≤ res.norm)
    (hn : ∀ next ∈ steps, next.exhausted = false) :
    ((res :: steps.map JointStep.residual).map Residual.norm).Pairwise (· ≥ ·) := by
  rw [← List.isChain_iff_pairwise]
  induction h with
  | capped => exact .singleton _
  | settled _ => exact .singleton _
  | step _ hy _ _ ih =>
    obtain ⟨first, rest⟩ := List.forall_mem_cons.1 hn
    exact .cons_cons (hstep _ _ _ hy first) (ih rest)

end Climb

section Descent

variable {m : ∀ r, BarrierMethod ℝ (σ r)} {cap : Nat} {epsimin e : ℝ} {s s' : ∀ r, σ r}
  {levels : List (Level σ)}

/-- A descent takes as many levels as it takes tenths to get down to the last parameter. -/
theorem Descends.isLeast_length (h : Descends m cap epsimin e s levels s') :
    IsLeast {k : Nat | e * 0.1 ^ k ≤ epsimin} levels.length := by
  induction h with
  | stop he =>
    refine ⟨?_, fun k _ => Nat.zero_le k⟩
    simpa using he
  | @level e _ _ _ _ _ levels _ he _ _ _ ih =>
    have tenth (k : Nat) : e * 0.1 ^ (k + 1) = e * 0.1 * 0.1 ^ k := by rw [pow_succ', mul_assoc]
    refine ⟨?_, fun k hk => ?_⟩
    · exact (tenth levels.length).le.trans ih.1
    · cases k with
      | zero =>
        rw [Set.mem_ofPred_eq, pow_zero, mul_one] at hk
        exact absurd he hk.not_gt
      | succ k => exact Nat.succ_le_succ (ih.2 ((tenth k).ge.trans hk))

/-- No level takes more steps than the cap, and one that is left with a residual too large takes as many. -/
lemma Descends.steps_le (h : Descends m cap epsimin e s levels s') :
    ∀ l ∈ levels, l.steps.length ≤ cap ∧ (l.Capped → l.steps.length = cap) := by
  induction h with
  | stop _ => exact nofun
  | level _ _ hc _ ih => exact List.forall_mem_cons.2 ⟨⟨hc.length_le, hc.length_eq⟩, ih⟩

/-- The residual that the last level is left with is that of the states it is left with. -/
lemma Descends.measured (h : Descends m cap epsimin e s levels s') {l : Level σ}
    (hl : levels.getLast? = some l) :
    l.epsi = e * 0.1 ^ (levels.length - 1) ∧ Measured m l.epsi s' l.residual := by
  induction h with
  | stop _ => cases hl
  | @level e _ _ _ _ _ levels _ _ hm hc hd ih =>
    cases levels with
    | nil =>
      cases hl
      cases hd with
      | stop _ => exact ⟨by simp, hc.measured hm⟩
    | cons l' levels =>
      obtain ⟨hepsi, hlast⟩ := ih hl
      refine ⟨?_, hlast⟩
      rw [hepsi, mul_assoc, ← pow_succ']
      rfl

/-- A descent ends where it starts, or where one of its steps leads to. -/
lemma Descends.arrives (h : Descends m cap epsimin e s levels s') :
    (levels.flatMap Level.steps = [] ∧ s' = s) ∨ ∃ last ∈ levels.flatMap Level.steps, last.state = s' := by
  induction h with
  | stop _ => exact .inl ⟨rfl, rfl⟩
  | level _ _ hc _ ih =>
    rw [List.flatMap_cons]
    rcases ih with ⟨hnil, rfl⟩ | ⟨last, hl, hs⟩
    · rw [hnil, List.append_nil]
      exact hc.arrives
    · exact .inr ⟨last, List.mem_append_right _ hl, hs⟩

/-- A descent takes no step exactly if the states that it starts from are good enough for each of its
parameters. -/
theorem Descends.steps_eq_nil_iff (h : Descends m cap epsimin e s levels s') (hcap : cap ≠ 0)
    {res : ℝ → Residual ℝ} (hres : ∀ e, Measured m e s (res e)) :
    levels.flatMap Level.steps = [] ↔
      ∀ k < levels.length, ¬ (res (e * 0.1 ^ k)).Exceeds (e * 0.1 ^ k) := by
  induction h with
  | stop _ => exact iff_of_true rfl nofun
  | @level e _ entry steps _ _ levels _ _ hm hc _ ih =>
    have same : entry = res e := congrFun (hm.unique (hres e)) 0
    have tenth (k : Nat) : e * 0.1 ^ (k + 1) = e * 0.1 * 0.1 ^ k := by rw [pow_succ', mul_assoc]
    subst same
    rw [List.flatMap_cons, List.append_eq_nil_iff, hc.eq_nil_iff hcap, List.length_cons,
      Nat.forall_lt_succ_left]
    simp only [tenth, pow_zero, mul_one]
    refine and_congr_right fun hsettled => ?_
    have none := (hc.eq_nil_iff hcap).2 hsettled
    subst none
    rw [hc.eq_of_nil] at ih
    exact ih hres

/-- What holds of every Newton step holds of those of a descent. -/
lemma Descends.forall_steps {Q : JointStep σ → Prop} (h : Descends m cap epsimin e s levels s')
    (hQ : ∀ e s res next, Stepped m e s res next → Q next) :
    ∀ next ∈ levels.flatMap Level.steps, Q next := by
  induction h with
  | stop _ => exact nofun
  | level _ _ hc _ ih =>
    rw [List.flatMap_cons]
    exact List.forall_mem_append.2 ⟨hc.forall_steps (hQ _), ih⟩

/-- If no line search of a descent ends on its cap, the residual norm does not grow along any of its levels. -/
lemma Descends.pairwise_norms (h : Descends m cap epsimin e s levels s')
    (hstep : ∀ e s res next, Stepped m e s res next → next.exhausted = false → next.residual.norm ≤ res.norm)
    (hn : ∀ next ∈ levels.flatMap Level.steps, next.exhausted = false) :
    ∀ l ∈ levels, l.norms.Pairwise (· ≥ ·) := by
  induction h with
  | stop _ => exact nofun
  | level _ _ hc _ ih =>
    rw [List.flatMap_cons, List.forall_mem_append] at hn
    exact List.forall_mem_cons.2 ⟨hc.pairwise_norms (hstep _) hn.1, ih hn.2⟩

end Descent

section Record

variable (r : Fin (R + 1))

/-- The record after some Newton steps. -/
lemma foldl_afterStep (steps : List (JointStep σ)) (d : Diagnostics ℝ) :
    steps.foldl (fun d step => d.afterStep (step.own r)) d =
      { d with
        newtonIterations := d.newtonIterations + steps.length
        exhaustedLineSearches := d.exhaustedLineSearches + steps.countP (·.exhausted)
        minMultiplier := (steps.flatMap (·.seen r)).foldl Diagnostics.smallestSeen d.minMultiplier } := by
  induction steps generalizing d with
  | nil => rfl
  | cons step steps ih =>
    rw [List.foldl_cons, ih, List.flatMap_cons, List.foldl_append, List.countP_cons, List.length_cons]
    unfold Diagnostics.afterStep Diagnostics.observe JointStep.own
    dsimp only
    congr 1 <;> omega

/-- The record after some levels. -/
theorem Level.foldl_record (levels : List (Level σ)) (d : Diagnostics ℝ) :
    levels.foldl (fun d l => l.record r d) d =
      { barrierLevels := d.barrierLevels + levels.length
        newtonIterations := d.newtonIterations + (levels.flatMap Level.steps).length
        cappedLevels := d.cappedLevels + levels.countP (·.Capped)
        exhaustedLineSearches := d.exhaustedLineSearches + (levels.flatMap Level.steps).countP (·.exhausted)
        residualNorm := (levels.map (·.residual.norm)).getLastD d.residualNorm
        residualMax := (levels.map (·.residual.max)).getLastD d.residualMax
        minMultiplier := ((levels.flatMap Level.steps).flatMap (·.seen r)).foldl Diagnostics.smallestSeen
          d.minMultiplier } := by
  induction levels generalizing d with
  | nil => rfl
  | cons l levels ih =>
    rw [List.foldl_cons, ih]
    unfold record Diagnostics.afterLevel
    rw [foldl_afterStep]
    simp only [List.flatMap_cons, List.length_cons, List.length_append, List.countP_cons, List.countP_append,
      List.map_cons, List.getLastD_cons, List.flatMap_append, List.foldl_append]
    have capped : (if l.residual.Exceeds l.epsi then 1 else 0) = if decide l.Capped then 1 else 0 := by
      by_cases h : l.residual.Exceeds l.epsi <;> simp [Capped, h]
    rw [capped]
    congr 1 <;> omega

end Record

end BarrierMethod

end MovingAsymptotes
