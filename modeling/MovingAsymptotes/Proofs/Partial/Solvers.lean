import MovingAsymptotes.Proofs.Confinement
import MovingAsymptotes.Proofs.Partial.Direction
import MovingAsymptotes.Proofs.Partial.State

/-!
# Solves over reals with an undefined value

If the subproblem consists of numbers, the interior-point method comes through points that consist of
numbers and are interior, just as over the reals: the bound on a step is a number, too. The dual method gets
by with less. Whatever its multipliers are, it clips the design that belongs to them to the move limits, and
it is enough if these are numbers.

* `Approximation.solveInterior_defined`: the interior-point method.
* `Approximation.solveDual_within`: the dual method.
-/

namespace MovingAsymptotes

open PartialReal

variable {n m : Nat}

section Lists

lemma foldl_larger_map (l : List ℝ) (c : ℝ) : (l.map real).foldl larger (real c) = real (l.foldl larger c) := by
  rw [List.foldl_map]
  exact List.foldl_hom real fun a b => larger_real a b

/-- Rows of numbers have numbers as measures. -/
lemma Tally.ofRows_map (rows : List ℝ) :
    Tally.ofRows (rows.map real) = ⟨real (Tally.ofRows rows).squares, real (Tally.ofRows rows).max⟩ := by
  let lifted (t : Tally ℝ) : Tally PartialReal := ⟨real t.squares, real t.max⟩
  unfold ofRows
  rw [List.foldl_map]
  show rows.foldl _ (lifted ⟨0, 0⟩) = lifted (rows.foldl _ ⟨0, 0⟩)
  refine List.foldl_hom lifted fun t r => ?_
  exact congrArg (Tally.mk _) (larger_real t.max |r|)

end Lists

/-- A barrier method that stops after its first level. -/
lemma BarrierMethod.solve_first {α σ : Type} [Scalar α] {method : BarrierMethod α σ} {epsimin : α} {start : σ}
    {P : Residual α → Prop} {Q : σ → Prop} (hone : epsimin < 1) (htenth : ¬ epsimin < 1 * 0.1)
    (residual : (method.residual start 1).Returns P)
    (level : ∀ r, P r → (method.level 1 method.cap { state := start, residual := r, diagnostics := .initial }).Returns
      fun p => Q p.state) :
    (method.solve epsimin 1 start).Returns fun out => Q out.1 := by
  show (method.levels epsimin 1 1 start .initial).Returns fun out => Q out.1
  unfold levels
  rw [if_pos hone]
  refine residual.bind fun r hr => (level r hr).bind fun p hp => ?_
  unfold levels
  rw [if_neg htenth]
  exact Program.returns_pure hp

namespace BarrierMethod

variable {σ : Type} {method : BarrierMethod PartialReal σ} {I : σ → Prop}
  (residual : ∀ s e, I s → (method.residual s (real e)).Defined fun _ => True)
  (advance : ∀ s r e, I s → (method.advance s r (real e)).Defined fun next => I next.state)

include advance in
lemma level_defined (epsi : ℝ) (steps : Nat) {p : Progress PartialReal σ} (hp : I p.state) :
    (method.level (real epsi) steps p).Defined fun p' => I p'.state := by
  induction steps generalizing p with
  | zero => exact hp
  | succ steps ih =>
    unfold level
    split
    · exact (advance _ _ _ hp).bind fun next hn => ih hn
    · exact hp

include residual advance

lemma levels_defined (epsimin : PartialReal) (rounds : Nat) {epsi : ℝ} {s : σ} {d : Diagnostics PartialReal}
    (hs : I s) : (method.levels epsimin rounds (real epsi) s d).Defined fun out => I out.1 := by
  induction rounds generalizing epsi s d with
  | zero =>
    unfold levels
    split
    · trivial
    · exact hs
  | succ rounds ih =>
    unfold levels
    split
    · refine (residual s epsi hs).bind fun r _ => ?_
      exact (level_defined advance epsi method.cap hs).bind fun p hp => ih hp
    · exact hs

/-- What every Newton step keeps holds of the state that a solve ends with, if residuals and steps from
such a state work with numbers. -/
theorem solve_defined (epsimin : PartialReal) (rounds : Nat) {start : σ} (hs : I start) :
    (method.solve epsimin rounds start).Defined fun out => I out.1 :=
  levels_defined residual advance epsimin rounds hs

end BarrierMethod

section Interior

variable {a : Approximation ℝ n m} {wt : Weights ℝ m} {w dir : KktPoint ℝ n m}

lemma KktPoint.stepped_lifted (t : ℝ) : w.lifted.stepped dir.lifted (real t) = (w.stepped dir t).lifted := by
  have along : ∀ {k : Nat} (u v : Vector ℝ k), KktPoint.along (lift u) (lift v) (real t) = lift (along u v t) :=
    fun u v => lift_zipWith (fun _ _ => rfl) u v
  unfold stepped lifted
  simp only [along, real_mul, real_add]

namespace Approximation

lemma overshoot_real {v : ℝ} (hv : 0 < v) (dv : ℝ) : overshoot (real v) (real dv) = real (overshoot v dv) := by
  unfold overshoot
  rw [ofScientific_eq, real_neg, real_mul, real_div hv.ne']

lemma interiorStart_lifted (ha : a.WellPosed) :
    a.lifted.interiorStart wt.lifted = (a.interiorStart wt).lifted := by
  let x : Vector ℝ n := Vector.zipWith (fun l u => (l + u) * 0.5) a.limits.alfa a.limits.beta
  have hi : (a.interiorStart wt).Interior a := interiorStart_interior ha
  have hx : Vector.zipWith (fun l u => (l + u) * 0.5) a.limits.lifted.alfa a.limits.lifted.beta = lift x :=
    lift_zipWith (fun _ _ => rfl) _ _
  have below : ∀ j : Fin n, real 1 / real (a.limits.roomBelow x j) = real (1 / a.limits.roomBelow x j) :=
    fun j => real_div (hi.roomBelow_pos j).ne'
  have above : ∀ j : Fin n, real 1 / real (a.limits.roomAbove x j) = real (1 / a.limits.roomAbove x j) :=
    fun j => real_div (hi.roomAbove_pos j).ne'
  have hmu : (lift wt.c).map (fun c => larger (0.5 * c) (real 1)) = lift (wt.c.map fun c => larger (0.5 * c) 1) :=
    lift_eq_iff.2 fun i => by rw [entry_map, entry_map, entry_lift, ofScientific_eq, real_mul, larger_real]
  unfold interiorStart Weights.lifted
  rw [limits_lifted]
  dsimp only
  rw [hx]
  simp only [MoveLimits.roomBelow_lifted, MoveLimits.roomAbove_lifted, one_eq, below, above, larger_real, ofFn_real,
    lift_replicate, hmu]
  rfl

section Step

variable (hi : w.Interior a)
include hi

lemma localOvershoots_lifted :
    a.lifted.localOvershoots w.lifted dir.lifted = (a.localOvershoots w dir).map real := by
  unfold localOvershoots
  rw [List.map_flatMap]
  refine List.flatMap_congr fun j _ => ?_
  simp only [KktPoint.lifted, limits_lifted, MoveLimits.roomBelow_lifted, MoveLimits.roomAbove_lifted, entry_lift,
    real_neg, overshoot_real (hi.xsi_pos j), overshoot_real (hi.eta_pos j), overshoot_real (hi.roomBelow_pos j),
    overshoot_real (hi.roomAbove_pos j), List.map_cons, List.map_nil]

lemma sharedOvershoots_lifted : sharedOvershoots w.lifted dir.lifted = (sharedOvershoots w dir).map real := by
  unfold sharedOvershoots
  rw [List.map_append, List.map_flatMap]
  refine congrArg₂ (· ++ ·) ?_ (List.flatMap_congr fun i _ => ?_)
  · simp only [KktPoint.lifted, overshoot_real hi.z_pos, overshoot_real hi.zet_pos, List.map_cons, List.map_nil]
  · simp only [KktPoint.lifted, entry_lift, overshoot_real (hi.y_pos i), overshoot_real (hi.lambda_pos i),
      overshoot_real (hi.mu_pos i), overshoot_real (hi.s_pos i), List.map_cons, List.map_nil]

/-- The bound on a step is a number. -/
lemma inverseStep_defined : (a.lifted.inverseStep w.lifted dir.lifted).Defined fun inverse =>
    ∃ inverse', inverse = real inverse' ∧ a.BoundsStep w dir inverse' := by
  unfold inverseStep
  rw [localOvershoots_lifted hi, sharedOvershoots_lifted hi, one_eq, foldl_larger_map]
  refine (Program.defined_reduceScalar .max _).bind fun spread hspread => ?_
  obtain ⟨spread, rfl, hspread⟩ := hspread
  obtain ⟨hs, hshared⟩ := (foldl_larger_le_iff (sharedOvershoots w dir)).1 (le_refl _)
  obtain ⟨hone, hown⟩ := (foldl_larger_le_iff (a.localOvershoots w dir)).1 ((hspread rfl).trans hs)
  exact ⟨_, foldl_larger_map _ _, hone, hown, hshared⟩

lemma localRows_lifted (ha : a.WellPosed) (epsi : ℝ) :
    a.lifted.localRows w.lifted (real epsi) = (a.localRows w epsi).map real := by
  unfold localRows
  rw [List.map_flatMap]
  refine List.flatMap_congr fun j _ => ?_
  simp only [KktPoint.lifted, lagrangian_lifted, lagrangianGradient_lifted ha hi.contains, limits_lifted,
    MoveLimits.lifted, entry_lift, real_add, real_sub, real_mul, List.map_cons, List.map_nil]

/-- At an interior point the rank contributes numbers to the residual, whatever that is in the end. -/
lemma residual_defined (ha : a.WellPosed) (wt : Weights PartialReal m) (epsi : ℝ) :
    (a.lifted.residual wt w.lifted (real epsi)).Defined fun _ => True := by
  have sums : a.lifted.localSums w.lifted.x = lift (a.localSums w.x) := localSums_lifted ha hi.contains
  unfold residual
  rw [localRows_lifted hi ha, Tally.ofRows_map, sums]
  dsimp only
  rw [lift_push]
  refine (Program.defined_reduceAll .sum _).bind fun _ _ => ?_
  exact (Program.defined_reduceScalar .max _).bind fun _ _ => trivial

omit hi in
lemma sharedRows_lifted (wt : Weights ℝ m) (w : KktPoint ℝ n m) (violations : Vector ℝ m) (epsi : ℝ) :
    sharedRows wt.lifted w.lifted.y w.lifted.mu w.lifted.lambda w.lifted.s w.lifted.z w.lifted.zet
        (lift violations) (real epsi) =
      (sharedRows wt w.y w.mu w.lambda w.s w.z w.zet violations epsi).map real := by
  have along : (lift violations).toList = violations.toList.map real := Vector.toList_map
  unfold sharedRows
  simp only [KktPoint.lifted, Weights.lifted, along, dot_lift, entry_lift, real_add, real_sub, real_mul,
    List.map_append, List.map_cons, List.map_nil, List.map_map]
  rfl

/-- On a single rank the largest residual is the one over the reals. -/
lemma residual_lifted (ha : a.WellPosed) (wt : Weights ℝ m) (epsi : ℝ) :
    (a.lifted.residual wt.lifted w.lifted (real epsi)).Returns fun r =>
      r.max = real (a.residualOf wt w epsi).max := by
  have sums : a.lifted.localSums w.lifted.x = lift (a.localSums w.x) := localSums_lifted ha hi.contains
  have violations : ∀ own : ℝ, a.lifted.violations wt.lifted w.lifted (lift ((a.localSums w.x).push own)).pop =
      lift (a.violations wt w (a.localSums w.x)) := by
    intro own
    rw [lift_pop, Vector.pop_push]
    unfold Approximation.violations
    simp only [KktPoint.lifted, Weights.lifted, b_lifted, entry_lift, real_add, real_sub, real_mul, ofFn_real]
  unfold residual
  rw [localRows_lifted hi ha, Tally.ofRows_map, sums]
  dsimp only
  rw [lift_push]
  refine (Program.returns_reduceAll .sum _).bind ?_
  rintro _ rfl
  refine (Program.returns_reduceScalar .max _).bind ?_
  rintro _ rfl
  rw [violations, sharedRows_lifted, Tally.ofRows_map]
  exact Program.returns_pure (larger_real _ _)

end Step

/-- A method that starts at a solution of the first level stops there, if that level is the only one. -/
lemma solveInterior_at_rest (ha : a.WellPosed) (hm : m ≠ 0) {s : Settings PartialReal}
    (hcap : s.primalDualMaxInner ≠ 0) (hone : s.epsimin < 1) (htenth : ¬ s.epsimin < 1 * 0.1)
    (hstart : (a.residualOf wt (a.interiorStart wt) 1).max ≤ 0.9) :
    (a.lifted.solveInterior wt.lifted s (.single 1)).Returns fun sol => sol.point = (a.interiorStart wt).lifted := by
  have rests : (a.lifted.residual wt.lifted (a.interiorStart wt).lifted 1).Returns fun r => ¬ r.Exceeds 1 := by
    refine (residual_lifted (interiorStart_interior ha) ha wt 1).mono fun r hr => ?_
    unfold Residual.Exceeds
    rw [hr]
    show ¬ (0.9 : ℝ) * 1 < _
    linarith
  obtain ⟨more, hmore⟩ := Nat.exists_eq_succ_of_ne_zero hcap
  unfold solveInterior
  rw [if_neg hm, interiorStart_lifted ha]
  refine Program.Returns.bind (BarrierMethod.solve_first (Q := fun w => w = (a.interiorStart wt).lifted) hone htenth
    rests fun r hr => ?_) fun out hout => Program.returns_pure hout
  show (BarrierMethod.level _ 1 s.primalDualMaxInner _).Returns _
  rw [hmore]
  unfold BarrierMethod.level
  rw [if_neg hr]
  exact Program.returns_pure rfl

/-- Every trial step is short enough to lead to an interior point. -/
lemma backtrack_defined (ha : a.WellPosed) (hi : w.Interior a) (wt : Weights PartialReal m) {inverse : ℝ}
    (hb : a.BoundsStep w dir inverse) (epsi : ℝ) (norm : PartialReal) (more : Nat) {step : ℝ} (hs : 0 < step)
    (hle : step * inverse ≤ 1) :
    (a.lifted.backtrack wt w.lifted dir.lifted (real epsi) norm more (real step)).Defined fun next =>
      ∃ w', next.1 = KktPoint.lifted w' ∧ w'.Interior a := by
  have trial : ∀ t, 0 < t → t * inverse ≤ 1 →
      (a.lifted.trial wt w.lifted dir.lifted (real epsi) (real t)).Defined fun next =>
        ∃ w', next.1 = KktPoint.lifted w' ∧ w'.Interior a := by
    intro t ht hle
    have inside := hi.stepped hb ht hle
    unfold trial
    dsimp only
    rw [KktPoint.stepped_lifted]
    exact (residual_defined inside ha wt epsi).bind fun _ _ => ⟨_, rfl, inside⟩
  induction more generalizing step with
  | zero => exact trial step hs hle
  | succ more ih =>
    unfold backtrack
    refine (trial step hs hle).bind fun next hn => ?_
    dsimp only
    split
    · exact hn
    · rw [ofScientific_eq, real_mul]
      exact ih (show 0 < step * 0.5 by linarith) (show step * 0.5 * inverse ≤ 1 by linarith)

variable (wt) in
/-- A Newton step works with numbers, from one interior point to another. -/
lemma interiorStep_defined (ha : a.WellPosed) (hw : wt.Valid) (hi : w.Interior a) (s : Settings PartialReal)
    (e : Execution) (residual : Residual PartialReal) (epsi : ℝ) :
    (a.lifted.interiorStep wt.lifted s e w.lifted residual (real epsi)).Defined fun next =>
      ∃ w', next.state = KktPoint.lifted w' ∧ w'.Interior a := by
  unfold interiorStep
  refine (newtonDirection_defined ha hw hi e epsi).bind fun dir hdir => ?_
  obtain ⟨dir, rfl⟩ := hdir
  refine (inverseStep_defined hi).bind fun inverse hinverse => ?_
  obtain ⟨inverse, rfl, hb⟩ := hinverse
  rw [one_eq, real_div hb.pos.ne']
  have hone : 1 / inverse * inverse ≤ 1 := (one_div_mul_cancel hb.pos.ne').le
  exact (backtrack_defined ha hi _ hb epsi _ _ (one_div_pos.2 hb.pos) hone).bind fun next hn => hn

/-- The solution of a subproblem of numbers consists of numbers, and is interior. -/
theorem solveInterior_defined (ha : a.WellPosed) (hw : wt.Valid) (s : Settings PartialReal) (e : Execution) :
    (a.lifted.solveInterior wt.lifted s e).Defined fun sol =>
      ∃ w', sol.point = KktPoint.lifted w' ∧ w'.Interior a := by
  unfold solveInterior
  split
  · trivial
  · refine Program.Defined.bind (BarrierMethod.solve_defined
      (I := fun w => ∃ w', w = KktPoint.lifted w' ∧ w'.Interior a) ?_ ?_ s.epsimin e.rounds
      ⟨_, interiorStart_lifted ha, interiorStart_interior ha⟩) fun out hout => hout
    · rintro _ epsi ⟨w, rfl, hi⟩
      exact residual_defined hi ha _ epsi
    · rintro _ residual epsi ⟨w, rfl, hi⟩
      exact interiorStep_defined wt ha hw hi s e residual epsi

end Approximation

end Interior

section Dual

/-- Whatever is clipped to an interval of numbers lies within it. -/
lemma clamp_between {lo hi : ℝ} (h : lo ≤ hi) (a : PartialReal) :
    real lo ≤ clamp (real lo) (real hi) a ∧ clamp (real lo) (real hi) a ≤ real hi := by
  have clipped : ∀ b : ℝ, b ≤ hi →
      real lo ≤ larger (real b) (real lo) ∧ larger (real b) (real lo) ≤ real hi := by
    intro b hb
    rw [larger_real, larger_eq_max]
    exact ⟨le_max_right b lo, max_le hb h⟩
  unfold clamp
  cases a with
  | real a =>
    rw [smaller_real, smaller_eq_min]
    exact clipped _ (min_le_right a hi)
  | undefined =>
    rw [undefined_smaller]
    exact clipped hi (le_refl hi)

variable {a : Approximation PartialReal n m} {wt : Weights PartialReal m} {A : Replies PartialReal}
  {limits : MoveLimits ℝ n} (ha : a.limits = limits.lifted) (hl : ∀ j : Fin n, limits.alfa[j] ≤ limits.beta[j])
include ha hl

lemma DualState.ofMultipliers_within (lambda eta : Vector PartialReal m) :
    (DualState.ofMultipliers a wt lambda eta).Ensures A fun s => a.limits.Confines s.point.x := by
  refine Program.ensures_bind fun gradient j => ?_
  unfold DualPoint.ofMultipliers
  dsimp only
  rw [entry_ofFn, ha]
  unfold MoveLimits.lifted
  rw [entry_lift, entry_lift]
  exact clamp_between (hl j) _

lemma DualState.advance_within (s : DualState PartialReal n m) (epsi : PartialReal) :
    (s.advance a wt epsi).Ensures A fun next => a.limits.Confines next.state.point.x := by
  unfold DualState.advance
  refine Program.ensures_bind fun hess => ?_
  cases s.direction? hess epsi with
  | none => trivial
  | some direction => exact (DualState.ofMultipliers_within ha hl _ _).bind fun next hn => hn

/-- The dual method ends within move limits of numbers, whatever values are undefined. -/
theorem Approximation.solveDual_within (s : Settings PartialReal) (e : Execution) :
    (a.solveDual wt s e).Ensures A fun sol => a.limits.Confines sol.point.x := by
  unfold solveDual
  split
  · trivial
  · refine (DualState.ofMultipliers_within ha hl _ _).bind fun start hs => ?_
    exact Program.Ensures.bind (BarrierMethod.solve_ensures
      (I := fun state : DualState PartialReal n m => a.limits.Confines state.point.x)
      (fun state _ epsi _ => state.advance_within ha hl epsi) s.epsimin e.rounds hs) fun out hout => hout

end Dual

end MovingAsymptotes
