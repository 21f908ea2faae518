import MovingAsymptotes.Proofs.OptimalityCriteria
import MovingAsymptotes.Proofs.Optimizer.Update

/-!
# Updates from evaluations

Function values and gradients whose extents fit. What an update and a check of the optimality conditions
do with them depends on the number of constraints and on the weights alone, and with enough rounds both
come to an end.

* `Optimizer.Course`: the courses that an update may take.
* `Optimizer.update_returns`, `Optimizer.kktCheck_returns`: both come to an end.
-/

namespace MovingAsymptotes

variable {α : Type} {n m : Nat}

/-- Function values and gradients for `n` variables and any number of constraints. -/
structure Evaluation (α : Type) (n : Nat) where
  dfdx : Vector α n
  g : Array α
  /-- The gradients of the constraints, one column for each. -/
  dgdx : Mat α n g.size

namespace Evaluation

/-- The evaluation as a caller supplies it. -/
@[reducible]
def sensitivities (d : Evaluation α n) : Sensitivities α where
  dfdx := d.dfdx.toArray
  g := d.g
  dgdx := { rows := n, cols := d.g.size, entries := d.dgdx }

/-- The gradients of an evaluation. -/
def gradients (d : Evaluation α n) : Gradients α n d.g.size := ⟨d.dfdx, d.g.toVector, d.dgdx⟩

lemma matched (d : Evaluation α n) : d.sensitivities.matched n = .ok d.gradients :=
  Sensitivities.matched_mk d.dfdx d.g d.dgdx

variable [Scalar α] (d : Evaluation α n) {x : Vector α n} {bounds : Bounds α n} {draft : WeightDraft α}
  {w : KktPoint α n m}

/-- The residual of an evaluation that the point and the weights fit. -/
lemma residual_of_fit (hm : m = d.g.size) {wt : Weights α d.g.size}
    (hwt : draft.leading? d.g.size = some wt) :
    d.sensitivities.residual x bounds draft w = d.gradients.residual x bounds wt (w.cast rfl hm) := by
  unfold Sensitivities.residual
  rw [d.matched]
  refine (dif_pos hm).trans ?_
  simp only [dite_true, hwt]

lemma residual_of_unfit (hm : m = d.g.size) (hwt : draft.leading? d.g.size = none) :
    d.sensitivities.residual x bounds draft w = .fail (.unfitWeights d.g.size) := by
  unfold Sensitivities.residual
  rw [d.matched]
  refine (dif_pos hm).trans ?_
  simp only [dite_true, hwt]

lemma residual_of_mismatch (hm : m ≠ d.g.size) :
    d.sensitivities.residual x bounds draft w = .fail (.dimensionMismatch "multipliers" d.g.size m) := by
  unfold Sensitivities.residual
  rw [d.matched]
  exact dif_neg hm

end Evaluation

namespace Optimizer

/-- The problem of the update with a single constraint. -/
def criteriaProblem (o : Optimizer α n) (d : Gradients α n m) (hm : 0 < m) : CriteriaProblem α n where
  x := o.history.current
  bounds := o.bounds
  dfdx := d.dfdx
  g := d.g.get ⟨0, hm⟩
  dgdx := d.dgdx.map fun row => row.get ⟨0, hm⟩

lemma criteriaStep_eq [Scalar α] (o : Optimizer α n) (e : Execution) (d : Gradients α n m) (hm : 0 < m) :
    o.criteriaStep e d hm = (o.criteriaProblem d hm).step o.settings.oc e.rounds :=
  rfl

section Update

variable [Scalar α] {ε : Type} {o : Optimizer α n} (e : Execution) {s : Sensitivities α}
  {d : Gradients α n s.g.size}

/-- The state and the answer after an attempted update. -/
def settled (o : Optimizer α n) : Except (Failure α) (UpdateStep α n × α) →
    Optimizer α n × Except (Failure α) α
  | .error failure => (o, .error failure)
  | .ok (step, change) => (o.commit step change, .ok change)

/-- What an attempt comes to changes no bounds, settings or weights. -/
lemma settled_keeps (o : Optimizer α n) (result : Except (Failure α) (UpdateStep α n × α)) :
    (o.settled result).1.bounds = o.bounds ∧ (o.settled result).1.settings = o.settings ∧
      (o.settled result).1.m = o.m ∧ (o.settled result).1.weights = o.weights := by
  rcases result with failure | ⟨criteria | subproblem, change⟩
  · exact ⟨rfl, rfl, rfl, rfl⟩
  · exact ⟨rfl, rfl, rfl, rfl⟩
  · exact ⟨rfl, rfl, rfl, rfl⟩

/-- Without constraints there is no update. -/
lemma update_of_empty (hm : s.g.size = 0) :
    (o.update e s : Program α ε _) = .pure (o, .error { during := [], cause := .noConstraints }) := by
  unfold update
  exact dif_pos hm

/-- Nor is there one with gradients of other extents. -/
lemma update_of_unmatched {cause : Cause α} (hm : s.g.size ≠ 0) (hd : s.matched n = .error cause) :
    (o.update e s : Program α ε _) = .pure (o, .error { during := [], cause }) := by
  unfold update
  rw [dif_neg hm, hd]

/-- Weights that are refused stop an update. -/
lemma update_of_refused {cause : Cause α} (hm : s.g.size ≠ 0) (hd : s.matched n = .ok d)
    (hwt : (o.setConstraintCount s.g.size).weights.validate s.g.size = .error cause) :
    (o.update e s : Program α ε _) =
      .pure (o.setConstraintCount s.g.size, .error { during := [], cause }) := by
  unfold update
  rw [dif_neg hm, hd]
  simp only [hwt]

/-- With accepted weights an update is attempted. -/
lemma update_of_accepted {wt : Weights α s.g.size} (hm : s.g.size ≠ 0) (hd : s.matched n = .ok d)
    (hwt : (o.setConstraintCount s.g.size).weights.validate s.g.size = .ok wt) :
    (o.update e s : Program α ε _) =
      (((o.setConstraintCount s.g.size).attemptUpdate e d (Nat.pos_of_ne_zero hm) wt).attempt >>=
        fun result => Pure.pure ((o.setConstraintCount s.g.size).settled result)) := by
  unfold update
  rw [dif_neg hm, hd]
  simp only [hwt]
  refine congrArg (_ >>= ·) (funext fun result => ?_)
  cases result with
  | error failure => rfl
  | ok found => rfl

/-- A single rank settles what its attempt comes to. -/
lemma update_serial {wt : Weights α s.g.size} {result : Except (Failure α) (UpdateStep α n × α)}
    (hm : s.g.size ≠ 0) (hd : s.matched n = .ok d)
    (hwt : (o.setConstraintCount s.g.size).weights.validate s.g.size = .ok wt)
    (h : (((o.setConstraintCount s.g.size).attemptUpdate e d (Nat.pos_of_ne_zero hm) wt).attempt :
      Program α ε _).serial = .done result) :
    (o.update e s : Program α ε _).serial = .done ((o.setConstraintCount s.g.size).settled result) := by
  rw [update_of_accepted e hm hd hwt, Program.serial_bind, h]
  rfl

/-- The courses that an update may take. -/
inductive Course (o : Optimizer α n) (e : Execution) (s : Sensitivities α) :
    Program α ε (Optimizer α n × Except (Failure α) α) → Prop
  /-- There are no constraints, or the extents do not fit. -/
  | unfit {cause} : Course o e s (.pure (o, .error { during := [], cause }))
  | refused {d cause} : s.g.size ≠ 0 → s.matched n = .ok d →
    Course o e s (.pure (o.setConstraintCount s.g.size, .error { during := [], cause }))
  | attempted {d wt} (hm : s.g.size ≠ 0) : s.matched n = .ok d →
    (o.setConstraintCount s.g.size).weights.validate s.g.size = .ok wt →
    Course o e s
      (((o.setConstraintCount s.g.size).attemptUpdate e d (Nat.pos_of_ne_zero hm) wt).attempt >>=
        fun result => Pure.pure ((o.setConstraintCount s.g.size).settled result))

lemma update_course (o : Optimizer α n) (e : Execution) (s : Sensitivities α) :
    Course o e s (o.update e s : Program α ε _) := by
  by_cases hm : s.g.size = 0
  · rw [update_of_empty e hm]
    exact .unfit
  cases hd : s.matched n with
  | error cause =>
    rw [update_of_unmatched e hm hd]
    exact .unfit
  | ok d =>
    cases hwt : (o.setConstraintCount s.g.size).weights.validate s.g.size with
    | error cause =>
      rw [update_of_refused e hm hd hwt]
      exact .refused hm hd
    | ok wt =>
      rw [update_of_accepted e hm hd hwt]
      exact .attempted hm hd hwt

end Update

section Ends

variable {ε : Type} {o : Optimizer ℝ n} {rounds : Nat}

/-- The bounds and the settings are accepted, and the rounds are enough for the settings. -/
structure Ready (o : Optimizer ℝ n) (rounds : Nat) : Prop where
  bounds : o.bounds.Proper
  settings : o.settings.Valid
  allows : o.settings.Allows rounds

lemma Ready.of_eq (ho : o.Ready rounds) {o' : Optimizer ℝ n} (hb : o'.bounds = o.bounds)
    (hs : o'.settings = o.settings) : o'.Ready rounds where
  bounds := by
    rw [hb]
    exact ho.bounds
  settings := by
    rw [hs]
    exact ho.settings
  allows := by
    rw [hs]
    exact ho.allows

lemma Ready.setConstraintCount (ho : o.Ready rounds) (m : Nat) : (o.setConstraintCount m).Ready rounds :=
  ho.of_eq (setConstraintCount_bounds o m) (setConstraintCount_settings o m)

/-- The bounds and the settings outlast an update, whatever its result. -/
lemma Ready.settled (ho : o.Ready rounds) (result : Except (Failure ℝ) (UpdateStep ℝ n × ℝ)) :
    (o.settled result).1.Ready rounds := by
  obtain ⟨bounds, settings, -, -⟩ := o.settled_keeps result
  exact ho.of_eq bounds settings

/-- An attempted update comes to an end, with any number of constraints. -/
lemma attemptUpdate_returns {wt : Weights ℝ m} (ho : o.Ready rounds)
    (hx : o.bounds.Contains o.history.current) (hw : wt.Valid) (d : Gradients ℝ n m) (hm : 0 < m) :
    ((o.attemptUpdate (.single rounds) d hm wt).attempt : Program ℝ ε _).Returns fun _ => True := by
  by_cases h : m < 2
  · have posed : o.criteriaStep (.single rounds) d hm = (o.criteriaProblem d hm).step o.settings.oc rounds :=
      o.criteriaStep_eq _ d hm
    unfold attemptUpdate step Program.Returns
    rw [if_pos h]
    simp only [Program.serial_attempt, Program.serial_bind, Program.serial_mapError, posed]
    -- A multiplier that is not bracketed is a failure, and so a result of the attempt.
    obtain ⟨step, hp⟩ | ⟨violation, hp⟩ := (o.criteriaProblem d hm).step_ends o.settings.oc ho.allows.bracket
    · rw [hp]
      exact ⟨_, rfl, trivial⟩
    · rw [hp]
      exact ⟨_, rfl, trivial⟩
  · obtain ⟨step, change, hstep⟩ :=
      attemptUpdate_ends ho.bounds hx ho.settings hw (not_lt.1 h) d ho.allows
    refine ⟨.ok (step, change), ?_, trivial⟩
    rw [Program.serial_attempt, hstep rounds le_rfl]

/-- From a design within the bounds an update by a subproblem succeeds, with the weights that are in force
for its constraints. -/
lemma exists_update_serial (hb : o.bounds.Proper) (hx : o.bounds.Contains o.history.current)
    (hs : o.settings.Valid) {d : Evaluation ℝ n} (hm : 2 ≤ d.g.size)
    (hw : o.m = d.g.size → ∃ wt, o.weights.validate d.g.size = .ok wt) :
    ∃ k step change wt, (o.update (.single k) d.sensitivities : Program ℝ ε _).serial =
        .done ((o.setConstraintCount d.g.size).commit step change, .ok change) ∧
      (o.setConstraintCount d.g.size).weights.validate d.g.size = .ok wt := by
  obtain ⟨weights, wt, hcounted, hwt⟩ := setConstraintCount_eq hw
  obtain ⟨k, hk⟩ := hs.exists_allows
  obtain ⟨step, change, hstep⟩ := attemptUpdate_ends (o := { o with m := d.g.size, weights }) hb hx hs
    (WeightDraft.validate_eq_ok_iff.1 hwt).2 hm d.gradients (hk k (le_refl k))
  have accepted : (o.setConstraintCount d.g.size).weights.validate d.g.size = .ok wt := by
    rw [hcounted]
    exact hwt
  have attempted : (((o.setConstraintCount d.g.size).attemptUpdate (.single k) d.gradients
      (two_pos.trans_le hm) wt).attempt : Program ℝ ε _).serial = .done (.ok (step, change)) := by
    rw [Program.serial_attempt, hcounted, hstep k (le_refl k)]
  exact ⟨k, step, change, wt,
    update_serial (.single k) (two_pos.trans_le hm).ne' d.matched accepted attempted, accepted⟩

/-- An update comes to an end, and leaves the state ready for the next one. -/
theorem update_returns (ho : o.Ready rounds) (hx : o.bounds.Contains o.history.current)
    (d : Evaluation ℝ n) :
    (o.update (.single rounds) d.sensitivities : Program ℝ ε _).Returns fun next =>
      next.1.Ready rounds := by
  by_cases hm : d.g.size = 0
  · rw [update_of_empty _ hm]
    exact Program.returns_pure ho
  have counted := ho.setConstraintCount d.g.size
  cases hwt : (o.setConstraintCount d.g.size).weights.validate d.g.size with
  | error cause =>
    rw [update_of_refused _ hm d.matched hwt]
    exact Program.returns_pure counted
  | ok wt =>
    have hw := (WeightDraft.validate_eq_ok_iff.1 hwt).2
    rw [update_of_accepted _ hm d.matched hwt]
    refine (attemptUpdate_returns counted (contains_counted hx _) hw d.gradients
      (Nat.pos_of_ne_zero hm)).bind fun result _ => ?_
    exact Program.returns_pure (counted.settled result)

/-- A check of the optimality conditions comes to an end. -/
theorem kktCheck_returns (o : Optimizer ℝ n) (d : Evaluation ℝ n) :
    (o.kktCheck d.sensitivities : Program ℝ ε _).Returns fun _ => True := by
  unfold kktCheck
  cases o.lastSolution with
  | none => exact Program.returns_pure trivial
  | some found =>
    unfold Program.Returns
    simp only [Program.serial_attempt, Program.serial_mapError]
    by_cases hm : found.m = d.g.size
    · cases hwt : o.weights.leading? d.g.size with
      | none =>
        rw [d.residual_of_unfit hm hwt]
        exact ⟨_, rfl, trivial⟩
      | some wt =>
        rw [d.residual_of_fit hm hwt]
        exact ⟨_, rfl, trivial⟩
    · rw [d.residual_of_mismatch hm]
      exact ⟨_, rfl, trivial⟩

end Ends

end Optimizer

end MovingAsymptotes
