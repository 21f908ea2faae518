import MovingAsymptotes.Proofs.Confinement
import MovingAsymptotes.Proofs.Optimizer.Evaluation

/-!
# Updates within move limits

An update from a design within the bounds sets move limits around it and ends within them. With a single
constraint they are the window of the optimality criteria; with more, they lie between asymptotes that
enclose the design, and from the third iteration on these keep to a distance that is measured by the
range. So no variable takes a larger step than the settings allow.

All this holds of a rank in any group, as long as it gets fair replies.

* `Optimizer.Advances`: what holds between the states before and after an update.
* `Optimizer.step_ensures`: an update advances the state.
-/

namespace MovingAsymptotes

variable {n m : Nat}

section Parts

variable {b : Bounds ℝ n} {x : Vector ℝ n}

/-- Asymptotes that follow the history keep to a distance between a hundredth and ten times the range.
-/
lemma Asymptotes.adapted_between (asy : Asymptotes ℝ n) (h : History ℝ n) (s : Settings ℝ) (hb : b.Proper)
    (j : Fin n) :
    (asy.adapted h b s).low[j] ∈
        Set.Icc (h.current[j] - 10 * b.range j) (h.current[j] - 0.01 * b.range j) ∧
      (asy.adapted h b s).upp[j] ∈
        Set.Icc (h.current[j] + 0.01 * b.range j) (h.current[j] + 10 * b.range j) := by
  have hr := hb.range_pos j
  have ten : (10.0 : ℝ) = 10 := by norm_num
  unfold adapted
  simp only [entry_ofFn, larger_eq_max, smaller_eq_min, ten]
  refine ⟨⟨le_min (le_max_right _ _) ?_, min_le_right _ _⟩, le_max_right _ _, max_le (min_le_right _ _) ?_⟩
  · linarith
  · linarith

lemma localChange_le {y : Vector ℝ n} {c : ℝ} (hb : b.Proper) (hc : 0 ≤ c)
    (h : ∀ j : Fin n, x[j] - c * b.range j ≤ y[j] ∧ y[j] ≤ x[j] + c * b.range j) :
    localChange y x b ≤ c := by
  refine (localChange_le_iff y x b c).2 ⟨hc, fun j => ?_⟩
  rw [abs_div, abs_of_pos (hb.range_pos j), div_le_iff₀ (hb.range_pos j), abs_le]
  obtain ⟨hl, hu⟩ := h j
  constructor <;> linarith

/-- Whatever the sums over all ranks are, the approximation around a design is well posed. -/
lemma Approximation.build_ensures {A : Replies ℝ} {asy : Asymptotes ℝ n} {limits : MoveLimits ℝ n}
    {s : Settings ℝ} (d : Gradients ℝ n m) (nGlobal : Nat) (ha : asy.Encloses x)
    (hl : limits.Nested asy b x) (hs : s.Valid) :
    (build x d asy limits nGlobal s).Ensures A fun a => a.WellPosed ∧ a.limits = limits :=
  Program.ensures_bind fun _ => ⟨{ around_wellPosed d nGlobal ha hl hs with }, rfl⟩

end Parts

namespace Optimizer

/-- The bounds leave every variable a range, and the settings are accepted. -/
structure Configured (o : Optimizer ℝ n) : Prop where
  bounds : o.bounds.Proper
  settings : o.settings.Valid

/-- The largest relative step of a variable that the settings allow for `m` constraints. -/
noncomputable def stepLimit (o : Optimizer ℝ n) (m : Nat) : ℝ :=
  if m < 2 then o.settings.oc.moveLimit else o.settings.mmamove

/-- What holds between the states before and after an update with `m` constraints. -/
structure Advances (o : Optimizer ℝ n) (m : Nat) (o' : Optimizer ℝ n) : Prop where
  bounds : o'.bounds = o.bounds
  settings : o'.settings = o.settings
  iteration : o'.iteration = o.iteration + 1
  previous : o'.history.previous = o.history.current
  lower_le_alfa : ∀ j : Fin n, o.bounds.lower[j] ≤ o'.limits.alfa[j]
  alfa_le : ∀ j : Fin n, o'.limits.alfa[j] ≤ o.history.current[j]
  le_beta : ∀ j : Fin n, o.history.current[j] ≤ o'.limits.beta[j]
  beta_le_upper : ∀ j : Fin n, o'.limits.beta[j] ≤ o.bounds.upper[j]
  contains : o'.limits.Contains o'.history.current
  /-- With a single constraint the asymptotes stay where they are. -/
  criteria : m < 2 → o'.asymptotes = o.asymptotes
  subproblem : 2 ≤ m → ∀ j : Fin n, o'.asymptotes.low[j] < o'.limits.alfa[j] ∧
    o'.limits.alfa[j] < o'.limits.beta[j] ∧ o'.limits.beta[j] < o'.asymptotes.upp[j]
  distance : 2 ≤ m → 3 ≤ o'.iteration → ∀ j : Fin n,
    o'.asymptotes.low[j] ∈ Set.Icc (o.history.current[j] - 10 * o.bounds.range j)
        (o.history.current[j] - 0.01 * o.bounds.range j) ∧
      o'.asymptotes.upp[j] ∈ Set.Icc (o.history.current[j] + 0.01 * o.bounds.range j)
        (o.history.current[j] + 10 * o.bounds.range j)
  /-- The interior-point method ends strictly within the move limits. -/
  interior : 2 ≤ m → o.settings.method = .primalDual → ∀ j : Fin n,
    o'.limits.alfa[j] < o'.history.current[j] ∧ o'.history.current[j] < o'.limits.beta[j]

variable {o : Optimizer ℝ n}

lemma Advances.keeps_bounds {o' : Optimizer ℝ n} (h : o.Advances m o') :
    o'.bounds.Contains o'.history.current := by
  intro j
  rw [h.bounds]
  exact ⟨(h.lower_le_alfa j).trans (h.contains j).1, (h.contains j).2.trans (h.beta_le_upper j)⟩

lemma Advances.configured {o' : Optimizer ℝ n} (h : o.Advances m o') (ho : o.Configured) : o'.Configured where
  bounds := by
    rw [h.bounds]
    exact ho.bounds
  settings := by
    rw [h.settings]
    exact ho.settings

section Step

variable (ho : o.Configured) (hx : o.bounds.Contains o.history.current)
include ho hx

lemma criteriaStep_ensures {A : Replies ℝ} (e : Execution) (d : Gradients ℝ n m) (hm : 0 < m) (h2 : m < 2) :
    (o.criteriaStep e d hm).Ensures A fun step =>
      (∀ change, o.Advances m (o.commit (.criteria step) change)) ∧
        localChange step.x o.history.current o.bounds ≤ o.stepLimit m := by
  let p := o.criteriaProblem d hm
  rw [criteriaStep_eq]
  refine (CriteriaProblem.step_ensures (p := p) ho.bounds hx ho.settings.oc e.rounds).mono fun step hstep => ?_
  obtain ⟨hlimits, hcontains⟩ := hstep
  have window := CriteriaProblem.window_contains (p := p) ho.bounds hx ho.settings.oc
  have alfa := CriteriaProblem.entry_window_alfa (p := p) (s := o.settings.oc)
  have beta := CriteriaProblem.entry_window_beta (p := p) (s := o.settings.oc)
  rw [← hlimits] at hcontains window alfa beta
  constructor
  · intro change
    exact
      { bounds := rfl
        settings := rfl
        iteration := rfl
        previous := rfl
        lower_le_alfa := fun j => (le_max_right _ _).trans_eq (alfa j).symm
        alfa_le := fun j => (window j).1
        le_beta := fun j => (window j).2
        beta_le_upper := fun j => (beta j).trans_le (min_le_right _ _)
        contains := hcontains
        criteria := fun _ => rfl
        subproblem := fun h => absurd h (by omega)
        distance := fun h => absurd h (by omega)
        interior := fun h => absurd h (by omega) }
  · rw [stepLimit, if_pos h2]
    refine localChange_le ho.bounds ho.settings.oc.moveLimit_pos.le fun j => ?_
    obtain ⟨hl, hu⟩ := hcontains j
    rw [alfa] at hl
    rw [beta] at hu
    exact ⟨(le_max_left _ _).trans hl, hu.trans (min_le_left _ _)⟩

lemma subproblemStep_ensures (e : Execution) (d : Gradients ℝ n m) (h2 : 2 ≤ m) (wt : Weights ℝ m) :
    (o.subproblemStep e d wt).Ensures .fair fun step =>
      (∀ change, o.Advances m (o.commit step change)) ∧
        localChange step.x o.history.current o.bounds ≤ o.stepLimit m := by
  let limits := o.nextAsymptotes.moveLimits o.history.current o.bounds o.settings
  have ha : o.nextAsymptotes.Encloses o.history.current := nextAsymptotes_encloses ho.bounds ho.settings
  have hl : limits.Nested o.nextAsymptotes o.bounds o.history.current :=
    Asymptotes.moveLimits_nested ha ho.bounds hx ho.settings
  unfold subproblemStep
  refine ((Approximation.build_ensures d o.nGlobal ha hl ho.settings).mapError _).bind fun a hwell => ?_
  obtain ⟨hwell, hlimits⟩ := hwell
  refine ((Approximation.solve_ensures hwell o.settings e).mapError _).bind fun sol hsol => ?_
  obtain ⟨hcontains, hinterior⟩ := hsol
  rw [hlimits] at hcontains
  constructor
  · intro change
    exact
      { bounds := rfl
        settings := rfl
        iteration := rfl
        previous := rfl
        lower_le_alfa := hl.lower_le_alfa
        alfa_le := hl.alfa_le
        le_beta := hl.le_beta
        beta_le_upper := hl.beta_le_upper
        contains := hcontains
        criteria := fun h => absurd h (by omega)
        subproblem := fun _ j => ⟨hl.low_lt_alfa j, hl.alfa_lt_beta j, hl.beta_lt_upp j⟩
        distance := fun _ (h3 : 3 ≤ o.iteration + 1) j => by
          have late : o.nextAsymptotes = o.asymptotes.adapted o.history o.bounds o.settings :=
            if_neg (not_lt.2 h3)
          change o.nextAsymptotes.low[j] ∈ _ ∧ o.nextAsymptotes.upp[j] ∈ _
          rw [late]
          exact o.asymptotes.adapted_between o.history o.settings ho.bounds j
        interior := fun _ hmethod j => by
          have inside := hinterior hmethod
          have hlt := inside.alfa_lt j
          have hgt := inside.lt_beta j
          rw [hlimits] at hlt hgt
          exact ⟨hlt, hgt⟩ }
  · rw [stepLimit, if_neg (by omega)]
    refine localChange_le ho.bounds ho.settings.mmamove_pos.le fun j => ?_
    obtain ⟨hlow, hupp⟩ := hcontains j
    rw [Asymptotes.entry_alfa] at hlow
    rw [Asymptotes.entry_beta] at hupp
    exact ⟨(le_max_right _ _).trans ((le_max_left _ _).trans hlow),
      hupp.trans ((min_le_left _ _).trans (min_le_right _ _))⟩

/-- An update advances the state, and no variable of the rank takes a larger step than is allowed. -/
theorem step_ensures (e : Execution) (d : Gradients ℝ n m) (hm : 0 < m) (wt : Weights ℝ m) :
    (o.step e d hm wt).Ensures .fair fun step =>
      (∀ change, o.Advances m (o.commit step change)) ∧
        localChange step.x o.history.current o.bounds ≤ o.stepLimit m := by
  unfold step
  split
  · next h2 => exact ((criteriaStep_ensures ho hx e d hm h2).mapError _).bind fun step hstep => hstep
  · next h2 => exact (subproblemStep_ensures ho hx e d (not_lt.1 h2) wt).mapError _

lemma attemptUpdate_ensures (e : Execution) (d : Gradients ℝ n m) (hm : 0 < m) (wt : Weights ℝ m) :
    (o.attemptUpdate e d hm wt).Ensures .fair fun found =>
      ∀ change, o.Advances m (o.commit found.1 change) :=
  (step_ensures ho hx e d hm wt).bind fun _ hstep => Program.ensures_bind fun _ => hstep.1

end Step

section Update

variable {ε : Type}

lemma Configured.counted (ho : o.Configured) (k : Nat) : (o.setConstraintCount k).Configured := by
  obtain ⟨m, weights, hk⟩ := o.setConstraintCount_shape k
  rw [hk]
  exact ⟨ho.bounds, ho.settings⟩

lemma Advances.of_counted {o' : Optimizer ℝ n} {k : Nat} (h : (o.setConstraintCount k).Advances m o') :
    o.Advances m o' := by
  obtain ⟨m', weights, hk⟩ := o.setConstraintCount_shape k
  rw [hk] at h
  exact { h with }

/-- What an update that succeeds ensures is what its attempt ensures, once it is committed. -/
theorem update_ensures_of_attempt {α : Type} [Scalar α] {A : Replies α} {o : Optimizer α n} {e : Execution}
    {s : Sensitivities α} {Q : Optimizer α n → Prop}
    (attempt : ∀ (d : Gradients α n s.g.size) (wt : Weights α s.g.size) (hm : 0 < s.g.size),
      s.matched n = .ok d → (o.setConstraintCount s.g.size).weights.validate s.g.size = .ok wt →
        ((o.setConstraintCount s.g.size).attemptUpdate e d hm wt).Ensures A fun found =>
          Q ((o.setConstraintCount s.g.size).commit found.1 found.2)) :
    (o.update e s : Program α ε _).Ensures A fun next => ∀ change, next.2 = .ok change → Q next.1 := by
  have course := o.update_course (ε := ε) e s
  generalize o.update e s = p at course ⊢
  cases course with
  | unfit => exact nofun
  | refused => exact nofun
  | attempted hm hd hwt =>
    refine (attempt _ _ _ hd hwt).attempt.bind fun result hresult => ?_
    cases result with
    | error failure => exact nofun
    | ok found => exact fun _ _ => hresult found rfl

/-- An update that succeeds advances the state. -/
theorem update_ensures (ho : o.Configured) (hx : o.bounds.Contains o.history.current) (e : Execution)
    (s : Sensitivities ℝ) :
    (o.update e s : Program ℝ ε _).Ensures .fair fun next =>
      ∀ change, next.2 = .ok change → o.Advances s.g.size next.1 := by
  refine update_ensures_of_attempt fun d wt hm _ _ => ?_
  refine (attemptUpdate_ensures (ho.counted _) (contains_counted hx _) e d hm wt).mono fun found hfound => ?_
  exact (hfound found.2).of_counted

/-- Bounds and settings outlast every update, and the design outlasts one that fails. -/
lemma update_keeps {A : Replies ℝ} (o : Optimizer ℝ n) (e : Execution) (s : Sensitivities ℝ) :
    (o.update e s : Program ℝ ε _).Ensures A fun next =>
      next.1.bounds = o.bounds ∧ next.1.settings = o.settings ∧
        ∀ failure, next.2 = .error failure → next.1.history = o.history := by
  have hb := setConstraintCount_bounds o s.g.size
  have hs := setConstraintCount_settings o s.g.size
  have hh := setConstraintCount_history o s.g.size
  have course := o.update_course (ε := ε) e s
  generalize o.update e s = p at course ⊢
  cases course with
  | unfit => exact ⟨rfl, rfl, fun _ _ => rfl⟩
  | refused => exact ⟨hb, hs, fun _ _ => hh⟩
  | attempted hm hd hwt =>
    refine Program.ensures_bind fun result => ?_
    obtain ⟨bounds, settings, -, -⟩ := (o.setConstraintCount s.g.size).settled_keeps result
    refine ⟨bounds.trans hb, settings.trans hs, ?_⟩
    cases result with
    | error failure => exact fun _ _ => hh
    | ok found => exact nofun

end Update

end Optimizer

end MovingAsymptotes
