import MovingAsymptotes.Proofs.Optimizer.Nesting
import MovingAsymptotes.Proofs.Partial.Loss
import MovingAsymptotes.Proofs.Partial.State

/-!
# Updates over reals with an undefined value

A state of numbers remains one through an update by a subproblem, and the new design lies within its move
limits, whatever slopes are undefined. The dual method does not even need values of the constraints. The
interior-point method does: without them its update succeeds all the same, and the design is gone.

* `Optimizer.update_confined`: what an update of a group leaves behind.
* `Optimizer.update_without_values`: an update that leaves no design.
-/

namespace MovingAsymptotes

open PartialReal

variable {n m : Nat}

lemma localChange_lifted {b : Bounds ℝ n} (hb : b.Proper) (x previous : Vector ℝ n) :
    localChange (lift x) (lift previous) b.lifted = real (localChange x previous b) := by
  unfold localChange
  rw [Fin.foldl_eq_foldl_finRange, Fin.foldl_eq_foldl_finRange]
  refine List.foldl_hom real fun largest j => ?_
  rw [entry_lift, entry_lift, real_sub, Bounds.range_lifted, real_div (hb.range_pos j).ne', real_abs, larger_real]
  rfl

lemma localChange_blank (previous : Vector PartialReal n) (b : Bounds PartialReal n) :
    localChange (blank n) previous b = 0 := by
  unfold localChange
  rw [Fin.foldl_eq_foldl_finRange]
  generalize (0 : PartialReal) = largest
  induction List.finRange n with
  | nil => rfl
  | cons j l ih => rw [List.foldl_cons, entry_blank, undefined_sub, undefined_div, abs_undefined, larger_undefined, ih]

namespace Optimizer

variable {o : Optimizer PartialReal n}

section Step

variable (ho : o.Defined) (e : Execution) (d : Gradients PartialReal n m) {wt : Weights PartialReal m}
include ho

lemma subproblemStep_within {A : Replies PartialReal} (hmethod : o.settings.method = .dualNewton) :
    (o.subproblemStep e d wt).Ensures A fun step => ∀ change, (o.commit step change).Confined := by
  obtain ⟨f⟩ := ho.exists_frame
  have order : ∀ j : Fin n, f.limits.alfa[j] ≤ f.limits.beta[j] := fun j => (f.nested.alfa_lt_beta j).le
  unfold subproblemStep
  dsimp only
  rw [f.asymptotes_eq, f.limits_eq]
  have built : (Approximation.build o.history.current d f.asymptotes.lifted f.limits.lifted o.nGlobal
      o.settings).Ensures A fun a => a.limits = f.limits.lifted := Program.ensures_bind fun _ => rfl
  refine (built.mapError _).bind fun a ha => ?_
  have solved : (a.solve wt o.settings e).Ensures A fun sol => a.limits.Confines sol.point.x := by
    unfold Approximation.solve
    rw [hmethod]
    exact Approximation.solveDual_within ha order o.settings e
  refine (solved.mapError _).bind fun sol hsol => ?_
  rw [ha] at hsol
  exact ho.commit f hsol

lemma subproblemStep_defined (hmethod : o.settings.method = .primalDual) (hg : ∀ i : Fin m, IsNumber d.g[i])
    {w : WeightDraft PartialReal} (hw : w.Defined) (hwt : w.validate m = .ok wt) :
    (o.subproblemStep e d wt).Defined fun step =>
      (∃ x, step.x = lift x) ∧ ∀ change, (o.commit step change).Confined := by
  obtain ⟨f⟩ := ho.exists_frame
  obtain ⟨wt, rfl, valid⟩ := WeightDraft.exists_lifted hw hwt
  unfold subproblemStep
  dsimp only
  rw [f.asymptotes_eq, f.limits_eq, f.x_eq]
  have built : (Approximation.build (lift f.x) d f.asymptotes.lifted f.limits.lifted o.nGlobal
      o.settings).Defined fun a => ∃ a' : Approximation ℝ n m, a = a'.lifted ∧ a'.WellPosed ∧
        a'.limits = f.limits := by
    rw [f.settings_eq]
    exact Approximation.build_defined d o.nGlobal f.encloses f.nested f.valid hg
  refine (built.mapError _).bind fun a ha => ?_
  obtain ⟨a, rfl, well, hlimits⟩ := ha
  have solved : (a.lifted.solve wt.lifted o.settings e).Defined fun sol =>
      ∃ w', sol.point = KktPoint.lifted w' ∧ w'.Interior a := by
    unfold Approximation.solve
    rw [hmethod]
    exact Approximation.solveInterior_defined well valid o.settings e
  refine (solved.mapError _).bind fun sol hsol => ?_
  obtain ⟨w, hpoint, hi⟩ := hsol
  have hx : sol.point.x = lift w.x := congrArg KktPoint.x hpoint
  refine ⟨⟨w.x, hx⟩, ho.commit f ?_⟩
  rw [hx, ← hlimits]
  exact hi.contains.confines

end Step

section Attempt

variable (ho : o.Defined) (e : Execution) (d : Gradients PartialReal n m) (hm : 2 ≤ m) (hpos : 0 < m)
  {wt : Weights PartialReal m}
include ho hm

lemma attemptUpdate_within {A : Replies PartialReal} (hmethod : o.settings.method = .dualNewton) :
    (o.attemptUpdate e d hpos wt).Ensures A fun found => (o.commit found.1 found.2).Confined := by
  unfold attemptUpdate step
  rw [if_neg (by omega)]
  refine ((subproblemStep_within ho e d hmethod).mapError _).bind fun step hstep => ?_
  exact Program.ensures_bind fun change => hstep change

/-- The step of the design is a number, too. -/
lemma attemptUpdate_defined (hmethod : o.settings.method = .primalDual) (hg : ∀ i : Fin m, IsNumber d.g[i])
    {w : WeightDraft PartialReal} (hw : w.Defined) (hwt : w.validate m = .ok wt) :
    (o.attemptUpdate e d hpos wt).Defined fun found => (o.commit found.1 found.2).Confined := by
  obtain ⟨f⟩ := ho.exists_frame
  unfold attemptUpdate step
  rw [if_neg (by omega)]
  refine ((subproblemStep_defined ho e d hmethod hg hw hwt).mapError _).bind fun step hstep => ?_
  obtain ⟨⟨x, hx⟩, hcommit⟩ := hstep
  have measured : (designChange step.x o.history.current o.bounds).Defined fun _ => True := by
    unfold designChange
    rw [hx, f.x_eq, f.bounds_eq, localChange_lifted f.proper]
    exact (Program.defined_reduceScalar .max _).mono fun _ _ => trivial
  exact (measured.mapError _).bind fun change _ => hcommit change

end Attempt

section Update

variable {ε : Type} (ho : o.Defined) (e : Execution) {s : Sensitivities PartialReal} (hm : 2 ≤ s.g.size)
include ho hm

lemma update_within {A : Replies PartialReal} (hmethod : o.settings.method = .dualNewton) :
    (o.update e s : Program PartialReal ε _).Ensures A fun next =>
      ∀ change, next.2 = .ok change → next.1.Confined := by
  have counted : (o.setConstraintCount s.g.size).settings.method = .dualNewton := by
    rwa [setConstraintCount_settings]
  exact update_ensures_of_attempt fun d wt hpos _ _ => attemptUpdate_within (ho.counted _) e d hm hpos counted

lemma update_defined (hmethod : o.settings.method = .primalDual) (hg : ∀ v ∈ s.g, IsNumber v) :
    (o.update e s : Program PartialReal ε _).Defined fun next =>
      ∀ change, next.2 = .ok change → next.1.Confined := by
  have course := o.update_course (ε := ε) e s
  generalize o.update e s = p at course ⊢
  cases course with
  | unfit => exact nofun
  | refused => exact nofun
  | @attempted d wt hne hd hwt =>
    have counted : (o.setConstraintCount s.g.size).settings.method = .primalDual := by
      rwa [setConstraintCount_settings]
    have values : ∀ i : Fin s.g.size, IsNumber d.g[i] := by
      intro i
      rw [Sensitivities.g_of_matched hd]
      exact hg _ (Array.getElem_mem i.isLt)
    refine (attemptUpdate_defined (ho.counted _) e d hm _ counted values (ho.counted _).weights
      hwt).attempt.bind fun result hresult => ?_
    cases result with
    | error failure => exact nofun
    | ok found => exact fun _ _ => hresult found rfl

end Update

end Optimizer

section Group

open Optimizer Program

variable {R : Nat} {size : Fin (R + 1) → Nat} {o o' : ∀ r, Optimizer PartialReal (size r)} {e : Execution}
  {s : Fin (R + 1) → Sensitivities PartialReal} {ε : Type}
  {result : Fin (R + 1) → Except (Failure PartialReal) PartialReal}

/-- An update of a group with at least two constraints leaves a state of numbers on every rank at which it
succeeds, with a design within its move limits. Slopes may be undefined, and with the dual method the values
of the constraints may be, too. -/
theorem Optimizer.update_confined {method : Method} (ho : ∀ r, (o r).Defined) (hm : ∀ r, 2 ≤ (s r).g.size)
    (hmethod : ∀ r, (o r).settings.method = method)
    (hg : method = .primalDual → ∀ r, ∀ v ∈ (s r).g, IsNumber v)
    (h : outcomes (fun r => ((o r).update e (s r) : Program PartialReal ε _)) =
      some (List.ofFn fun r => .done ⟨r, o' r, result r⟩)) (r : Fin (R + 1)) {change : PartialReal}
    (hr : result r = .ok change) : (o' r).Confined := by
  have ends := groupEnds_of_outcomes (b := fun r => (o' r, result r)) h
  cases method with
  | dualNewton => exact (update_within (ho r) e (hm r) (hmethod r)).of_ends (ends.ends_any r) change hr
  | primalDual =>
    have defined := fun r => update_defined (ε := ε) (ho r) e (hm r) (hmethod r) (hg rfl r)
    exact ends.of_defined defined r rfl change hr

end Group

namespace Optimizer

section Centred

/-- Settings for a single Newton step on a single barrier level. -/
noncomputable def singleStep : Settings ℝ :=
  { Settings.default with epsimin := 0.5, primalDualMaxInner := 1, maxBacktracks := 1, method := .primalDual }

lemma singleStep_valid : singleStep.Valid := by
  have usual := (Settings.validate_eq_ok_iff _).1 Settings.validate_default
  exact { usual with
    epsimin_pos := show (0 : ℝ) < 0.5 by norm_num
    epsimin_lt_one := show (0.5 : ℝ) < 1 by norm_num
    primalDualMaxInner_ne := one_ne_zero }

/-- One variable in the middle of its bounds, under two constraints. -/
noncomputable def centred (wt : Weights ℝ 2) : Optimizer PartialReal 1 :=
  { initial 1 1 with
    m := 2
    weights := ⟨real wt.a0, real wt.b0, (lift wt.a).toArray, (lift wt.c).toArray, (lift wt.d).toArray⟩
    settings := singleStep.lifted }

variable (wt : Weights ℝ 2)

lemma centred_bounds : (centred wt).bounds = (initial 1 1 : Optimizer ℝ 1).bounds.lifted := by
  unfold Bounds.lifted
  rw [show (initial 1 1 : Optimizer ℝ 1).bounds = ⟨Vector.replicate 1 0, Vector.replicate 1 1⟩ from rfl,
    ← lift_replicate, ← lift_replicate]
  rfl

lemma centred_history : (centred wt).history = (initial 1 1 : Optimizer ℝ 1).history.lifted := by
  unfold History.lifted
  rw [show (initial 1 1 : Optimizer ℝ 1).history = .still (Vector.replicate 1 0.5) from rfl]
  unfold History.still
  rw [← lift_replicate]
  rfl

lemma centred_asymptotes : (centred wt).asymptotes = (initial 1 1 : Optimizer ℝ 1).asymptotes.lifted :=
  congrArg Asymptotes.atBounds (centred_bounds wt)

noncomputable def centredFrame : (centred wt).Frame :=
  .of (centred_bounds wt) (centred_history wt) (centred_asymptotes wt) rfl (initial_configured 1 1).bounds
    (initial_contains 1 1) singleStep_valid

lemma centredFrame_x (j : Fin 1) : (centredFrame wt).x[j] = 0.5 := entry_replicate _ j

lemma centredFrame_limits (j : Fin 1) :
    (centredFrame wt).limits.alfa[j] = 0.05 ∧ (centredFrame wt).limits.beta[j] = 0.95 := by
  let b : Bounds ℝ 1 := ⟨Vector.replicate 1 0, Vector.replicate 1 1⟩
  let x : Vector ℝ 1 := Vector.replicate 1 0.5
  have range : b.range j = 1 := by
    unfold Bounds.range
    rw [entry_replicate, entry_replicate, sub_zero]
  have hx : x[j] = 0.5 := entry_replicate _ j
  have low : (Asymptotes.initial x b singleStep).low[j] = 0 := by
    unfold Asymptotes.initial
    rw [entry_ofFn, range, hx]
    show (0.5 : ℝ) - 0.5 * 1 = 0
    norm_num
  have upp : (Asymptotes.initial x b singleStep).upp[j] = 1 := by
    unfold Asymptotes.initial
    rw [entry_ofFn, range, hx]
    show (0.5 : ℝ) + 0.5 * 1 = 1
    norm_num
  show ((Asymptotes.initial x b singleStep).moveLimits x b singleStep).alfa[j] = 0.05 ∧
    ((Asymptotes.initial x b singleStep).moveLimits x b singleStep).beta[j] = 0.95
  rw [Asymptotes.entry_alfa, Asymptotes.entry_beta, low, upp, range, hx]
  show max (max ((0 : ℝ) + 0.1 * (0.5 - 0)) (0.5 - 0.5 * 1)) (Vector.replicate 1 0)[j] = 0.05 ∧
    min (min ((1 : ℝ) - 0.1 * (1 - 0.5)) (0.5 + 0.5 * 1)) (Vector.replicate 1 1)[j] = 0.95
  rw [entry_replicate, entry_replicate]
  norm_num

/-- The interior-point method starts from the design, with equal multipliers of both move limits. -/
lemma centred_start {a : Approximation ℝ 1 2} (ha : a.limits = (centredFrame wt).limits) :
    (a.interiorStart wt).x = (centredFrame wt).x ∧
      ∀ j : Fin 1, (a.interiorStart wt).xsi[j] = 1 / 0.45 ∧ (a.interiorStart wt).eta[j] = 1 / 0.45 := by
  have middle : (a.interiorStart wt).x = (centredFrame wt).x := by
    refine vector_ext fun j => ?_
    obtain ⟨alfa, beta⟩ := centredFrame_limits wt j
    unfold Approximation.interiorStart
    rw [entry_zipWith, ha, alfa, beta, centredFrame_x]
    norm_num
  refine ⟨middle, fun j => ?_⟩
  obtain ⟨alfa, beta⟩ := centredFrame_limits wt j
  have below : a.limits.roomBelow (a.interiorStart wt).x j = 0.45 := by
    unfold MoveLimits.roomBelow
    rw [middle, ha, alfa, centredFrame_x]
    norm_num
  have above : a.limits.roomAbove (a.interiorStart wt).x j = 0.45 := by
    unfold MoveLimits.roomAbove
    rw [middle, ha, beta, centredFrame_x]
    norm_num
  have long : larger (1 / 0.45 : ℝ) 1 = 1 / 0.45 := by
    rw [larger_eq_max]
    norm_num
  constructor
  · exact (entry_ofFn _ j).trans ((congrArg (fun r : ℝ => larger (1 / r) 1) below).trans long)
  · exact (entry_ofFn _ j).trans ((congrArg (fun r : ℝ => larger (1 / r) 1) above).trans long)

/-- The approximation of the next update, with zero for every value that is undefined. -/
noncomputable def centredModel (d : Gradients PartialReal 1 2) : Approximation ℝ 1 2 :=
  .around (centredFrame wt).x d.orZero (centredFrame wt).asymptotes (centredFrame wt).limits 1 singleStep

lemma centred_stationary (d : Gradients PartialReal 1 2) (j : Fin 1) :
    let a := centredModel wt d
    let w := a.interiorStart wt
    (a.lagrangianGradient w.x (a.lagrangian w.lambda))[j] - w.xsi[j] + w.eta[j] =
      d.orZero.dfdx[j] + d.orZero.dgdx[j][(0 : Fin 2)] + d.orZero.dgdx[j][(1 : Fin 2)] := by
  intro a w
  obtain ⟨middle, multipliers⟩ := centred_start wt (a := a) rfl
  obtain ⟨xsi, eta⟩ := multipliers j
  have lambda : ∀ i : Fin 2, w.lambda[i] = 1 := entry_replicate 1
  have gradient := Approximation.lagrangianGradient_around d.orZero (centredFrame wt).limits 1
    (s := singleStep) (centredFrame wt).encloses w.lambda j
  rw [middle, xsi, eta, sub_add_cancel]
  refine gradient.trans ?_
  rw [Fin.sum_univ_two, lambda, lambda, mul_one, mul_one, add_assoc]

lemma centred_validate (hw : wt.Valid) : (centred wt).weights.validate 2 = .ok wt.lifted :=
  WeightDraft.validate_lifted hw (WeightDraft.sized_eq_ok_iff.2 rfl)

lemma centred_defined : (centred wt).Defined := by
  have numbers : ∀ (v : Vector ℝ 2), ∀ a ∈ (lift v).toArray, IsNumber a := by
    intro v a ha
    obtain ⟨i, hi, rfl⟩ := Array.mem_iff_getElem.1 ha
    have hi' : i < 2 := by simpa using hi
    exact (entry_lift v ⟨i, hi'⟩).symm ▸ isNumber_real _
  have half : ∀ j : Fin 1, (centred wt).history.current[j] = real 0.5 := entry_replicate _
  have lower : ∀ j : Fin 1, (centred wt).bounds.lower[j] = real 0 := entry_replicate _
  have upper : ∀ j : Fin 1, (centred wt).bounds.upper[j] = real 1 := entry_replicate _
  constructor
  case proper =>
    intro j
    rw [lower, upper, real_lt_iff]
    exact one_pos
  case current =>
    intro j
    rw [lower, upper, half, real_le_iff, real_le_iff]
    norm_num
  case earlier => exact fun j => ⟨(half j).symm ▸ isNumber_real _, (half j).symm ▸ isNumber_real _⟩
  case asymptotes => exact fun j => ⟨(lower j).symm ▸ isNumber_real _, (upper j).symm ▸ isNumber_real _⟩
  case weights => exact ⟨isNumber_real _, isNumber_real _, numbers _, numbers _, numbers _⟩
  case settings => exact singleStep_valid.validate_lifted

lemma centred_counted : (centred wt).setConstraintCount 2 = centred wt := by
  refine if_neg (not_or.2 ⟨not_ne_iff.2 rfl, not_ne_iff.2 ?_⟩)
  exact (lift wt.a).size_toArray

variable {wt}

/-- An attempted update of a single rank comes to the point of its solve. -/
lemma centred_attempt {d : Gradients PartialReal 1 2} {a : Approximation PartialReal 1 2}
    {Q : KktPoint PartialReal 1 2 → Prop}
    (built : (Approximation.build (lift (centredFrame wt).x) d (centredFrame wt).asymptotes.lifted
      (centredFrame wt).limits.lifted 1 singleStep.lifted).Returns (· = a))
    (solved : (a.solveInterior wt.lifted singleStep.lifted (.single 1)).Returns fun sol => Q sol.point) :
    ((centred wt).attemptUpdate (.single 1) d two_pos wt.lifted).Returns fun found =>
      (∃ asymptotes limits sol, found.1 = .subproblem asymptotes limits ⟨2, sol⟩ ∧ Q sol.point) ∧
        found.2 = localChange found.1.x (centred wt).history.current (centred wt).bounds := by
  have stepped : ((centred wt).subproblemStep (.single 1) d wt.lifted).Returns fun step =>
      ∃ asymptotes limits sol, step = .subproblem asymptotes limits ⟨2, sol⟩ ∧ Q sol.point := by
    unfold subproblemStep
    dsimp only
    rw [(centredFrame wt).asymptotes_eq, (centredFrame wt).limits_eq, (centredFrame wt).x_eq]
    refine (built.mapError _).bind ?_
    rintro _ rfl
    refine (Program.Returns.mapError solved _).bind fun sol hsol => ?_
    exact Program.returns_pure ⟨_, _, sol, rfl, hsol⟩
  unfold attemptUpdate step
  rw [if_neg (lt_irrefl 2)]
  refine (stepped.mapError _).bind fun step hstep => ?_
  refine ((Program.returns_reduceScalar .max _).mapError _).bind ?_
  rintro _ rfl
  exact Program.returns_pure ⟨hstep, rfl⟩

/-- Weights under which the method starts at a solution, if the slopes and the values of the constraints
vanish. -/
def balanced : Weights ℝ 2 := ⟨1, 1, #v[0, 0], #v[1, 1], #v[1, 1]⟩

lemma balanced_valid : balanced.Valid := ⟨one_pos, fun i => by fin_cases i <;> exact one_pos⟩

/-- The start of the interior-point method is a solution already. -/
lemma balanced_start {d : Gradients PartialReal 1 2} (hdfdx : ∀ j : Fin 1, d.orZero.dfdx[j] = 0)
    (hg : ∀ i : Fin 2, d.orZero.g[i] = 0) (hdgdx : ∀ (j : Fin 1) (i : Fin 2), d.orZero.dgdx[j][i] = 0) :
    ((centredModel balanced d).residualOf balanced ((centredModel balanced d).interiorStart balanced) 1).max ≤
      0.9 := by
  let a := centredModel balanced d
  let w := a.interiorStart balanced
  obtain ⟨middle, multipliers⟩ := centred_start balanced (a := a) rfl
  have limits := centredFrame_limits balanced
  have weights : ∀ i : Fin 2, balanced.a[i] = 0 ∧ balanced.c[i] = 1 ∧ balanced.d[i] = 1 := by
    intro i
    fin_cases i <;> exact ⟨rfl, rfl, rfl⟩
  have y : ∀ i : Fin 2, w.y[i] = 1 := entry_replicate 1
  have lambda : ∀ i : Fin 2, w.lambda[i] = 1 := entry_replicate 1
  have s : ∀ i : Fin 2, w.s[i] = 1 := entry_replicate 1
  have mu : ∀ i : Fin 2, w.mu[i] = 1 := by
    intro i
    refine (entry_map _ _ i).trans ?_
    rw [(weights i).2.1, larger_eq_max]
    norm_num
  have value : ∀ i : Fin 2, (a.localSums (centredFrame balanced).x)[i] - a.b[i] = 0 := by
    intro i
    exact (Approximation.localSums_sub_around _ _ _ i).trans (hg i)
  have small : ∀ {r : ℝ}, r = 0 → |r| ≤ 0.9 := by
    rintro _ rfl
    norm_num
  refine (a.residualOf_max_le_iff _ _ _).2 ⟨by norm_num, ?_⟩
  constructor
  case stationary =>
    refine fun j => small ((centred_stationary balanced d j).trans ?_)
    rw [hdfdx, hdgdx, hdgdx]
    norm_num
  case lowerSide =>
    intro j
    rw [(multipliers j).1, middle, centredFrame_x, show a.limits.alfa[j] = 0.05 from (limits j).1]
    norm_num
  case upperSide =>
    intro j
    rw [(multipliers j).2, middle, centredFrame_x, show a.limits.beta[j] = 0.95 from (limits j).2]
    norm_num
  case shared =>
    constructor
    case artificial =>
      intro i
      rw [(weights i).2.1, (weights i).2.2, y, mu, lambda]
      norm_num
    case common =>
      have share : dot balanced.a w.lambda = 0 := by
        rw [dot_eq_sum]
        exact Finset.sum_eq_zero fun i _ => by rw [(weights i).1, zero_mul]
      rw [share]
      exact small (show (1 : ℝ) - 1 - 0 = 0 by norm_num)
    case feasible =>
      intro i
      have hi := value i
      unfold Approximation.violations
      rw [entry_ofFn, middle, (weights i).1, y, s]
      refine small ?_
      linarith
    case artificialSign =>
      intro i
      rw [mu, y]
      norm_num
    case commonSign => exact small (show (1 : ℝ) * 1 - 1 = 0 by norm_num)
    case slack =>
      intro i
      rw [lambda, s]
      norm_num

/-- A single rank settles the update that it has attempted. -/
lemma centred_update {a g₀ g₁ b₀ b₁ : PartialReal} {wt : Weights ℝ 2} (hw : wt.Valid)
    {found : UpdateStep PartialReal 1 × PartialReal}
    (h : ((centred wt).attemptUpdate (.single 1) ⟨#v[a], #v[g₀, g₁], #v[#v[b₀, b₁]]⟩ two_pos wt.lifted).serial =
      .done found) :
    ((centred wt).update (.single 1) ⟨#[a], #[g₀, g₁], ⟨1, 2, #v[#v[b₀, b₁]]⟩⟩ : Program PartialReal Empty _).serial =
      .done ((centred wt).commit found.1 found.2, .ok found.2) := by
  let d : Evaluation PartialReal 1 := ⟨#v[a], #[g₀, g₁], #v[#v[b₀, b₁]]⟩
  have counted : (centred wt).setConstraintCount d.sensitivities.g.size = centred wt := centred_counted wt
  have accepted : ((centred wt).setConstraintCount d.sensitivities.g.size).weights.validate 2 = .ok wt.lifted := by
    rw [counted]
    exact centred_validate wt hw
  have attempted : (((centred wt).setConstraintCount d.sensitivities.g.size).attemptUpdate (.single 1) d.gradients
      two_pos wt.lifted).serial = .done found := by
    rw [counted]
    exact h
  have settled : (((centred wt).setConstraintCount d.sensitivities.g.size).attemptUpdate (.single 1) d.gradients
      two_pos wt.lifted).attempt.serial = (.done (.ok found) : Outcome Empty _) := by
    rw [Program.serial_attempt, attempted]
  have updated := update_serial (.single 1) two_ne_zero d.matched accepted settled
  rw [counted] at updated
  exact updated

lemma singleStep_level : singleStep.lifted.epsimin < 1 ∧ ¬ singleStep.lifted.epsimin < 1 * 0.1 := by
  constructor
  · show (0.5 : ℝ) < 1
    norm_num
  · show ¬ (0.5 : ℝ) < 1 * 0.1
    norm_num

/-- An update to which no slope has been given. -/
theorem update_confined_without_slopes : ∃ o' change,
    ((centred balanced).update (.single 1) ⟨#[undefined], #[0, 0], ⟨1, 2, #v[#v[undefined, undefined]]⟩⟩ :
      Program PartialReal Empty _).serial = .done (o', .ok change) ∧
    (centred balanced).Defined ∧ o'.Confined := by
  let d : Evaluation PartialReal 1 := ⟨#v[undefined], #[0, 0], #v[#v[undefined, undefined]]⟩
  let f := centredFrame balanced
  have hg : ∀ i : Fin 2, IsNumber d.gradients.g[i] := fun i => by fin_cases i <;> exact isNumber_real 0
  have built := Approximation.build_returns d.gradients 1 f.encloses f.nested singleStep_valid hg
  have hw : (centredModel balanced d.gradients).WellPosed :=
    Approximation.around_wellPosed _ 1 f.encloses f.nested singleStep_valid
  have start := balanced_start (d := d.gradients)
    (fun j => by rw [Gradients.orZero_dfdx]; fin_cases j; rfl)
    (fun i => by rw [Gradients.orZero_g]; fin_cases i <;> rfl)
    fun j i => by rw [Gradients.orZero_dgdx]; fin_cases j; fin_cases i <;> rfl
  have solved := Approximation.solveInterior_at_rest hw two_ne_zero (s := singleStep.lifted) one_ne_zero
    singleStep_level.1 singleStep_level.2 start
  obtain ⟨⟨step, change⟩, attempted, -⟩ := centred_attempt
    (Q := fun w => w = ((centredModel balanced d.gradients).interiorStart balanced).lifted) built solved
  have updated : ((centred balanced).update (.single 1) d.sensitivities : Program PartialReal Empty _).serial =
      .done ((centred balanced).commit step change, .ok change) := centred_update balanced_valid attempted
  have ends : Program.outcomes (fun _ : Fin 1 => ((centred balanced).update (.single 1) d.sensitivities :
      Program PartialReal Empty _)) =
      some (List.ofFn fun r => .done ⟨r, (centred balanced).commit step change, .ok change⟩) := by
    rw [(Program.inStep_serial _).outcomes_eq, updated]
    rfl
  have values : ∀ v ∈ d.g, IsNumber v := by
    intro v hv
    obtain rfl : v = 0 := by simpa [d] using hv
    exact isNumber_real 0
  refine ⟨_, change, updated, centred_defined balanced, ?_⟩
  exact update_confined (fun _ => centred_defined balanced) (fun _ => le_refl 2) (fun _ => rfl) (fun _ _ => values)
    ends 0 rfl

/-- The usual weights of two constraints. -/
noncomputable def usual : Weights ℝ 2 := ⟨1, 1, #v[0, 0], #v[1e3, 1e3], #v[1, 1]⟩

lemma usual_valid : usual.Valid := ⟨one_pos, fun i => by fin_cases i <;> exact one_pos⟩

/-- If the constraints have no values, the interior-point method leaves no design, and the update succeeds. -/
theorem update_without_values : ∃ o',
    ((centred usual).update (.single 1) ⟨#[1], #[undefined, undefined], ⟨1, 2, #v[#v[1, 1]]⟩⟩ :
      Program PartialReal Empty _).serial = .done (o', .ok 0) ∧
    (centred usual).Defined ∧ ¬ o'.limits.Confines o'.history.current := by
  let d : Evaluation PartialReal 1 := ⟨#v[1], #[undefined, undefined], #v[#v[1, 1]]⟩
  let f := centredFrame usual
  have hg : d.gradients.g = blank 2 := eq_blank_iff.2 fun i => by fin_cases i <;> rfl
  have slope : ∀ j : Fin 1, d.gradients.orZero.dfdx[j] = 1 := by
    intro j
    rw [Gradients.orZero_dfdx]
    fin_cases j
    rfl
  have slopes : ∀ (j : Fin 1) (i : Fin 2), d.gradients.orZero.dgdx[j][i] = 1 := by
    intro j i
    rw [Gradients.orZero_dgdx]
    fin_cases j
    fin_cases i <;> rfl
  let a := Approximation.coefficients f.x d.gradients.orZero f.asymptotes f.limits 1 singleStep
  have built := Approximation.build_unvalued 1 f.encloses f.nested singleStep_valid hg
  have hw : a.WellPosed :=
    { Approximation.around_wellPosed d.gradients.orZero 1 f.encloses f.nested singleStep_valid with }
  have moving : 0.9 < (Tally.ofRows (a.localRows (a.interiorStart usual) 1)).max := by
    by_contra h
    have row := (Tally.max_ofRows_le_iff.1 (not_lt.1 h)).2 _
      (List.mem_flatMap.2 ⟨0, List.mem_finRange 0, List.mem_cons_self⟩)
    have stationary := centred_stationary usual d.gradients 0
    rw [slope, slopes, slopes] at stationary
    have three : |(1 : ℝ) + 1 + 1| ≤ 0.9 := (congrArg (fun r : ℝ => |r|) stationary).symm.trans_le row
    norm_num at three
  have solved := Approximation.solveInterior_unvalued hw usual_valid two_pos (le_of_lt one_lt_two)
    (s := singleStep.lifted) rfl singleStep_level.1 singleStep_level.2 moving
  obtain ⟨⟨step, change⟩, attempted, ⟨asymptotes, limits, sol, rfl, hsol⟩, hchange⟩ :=
    centred_attempt (Q := fun w => w = KktPoint.blank 1 2) built solved
  have hx : sol.point.x = blank 1 := congrArg KktPoint.x hsol
  obtain rfl : change = 0 := by
    refine hchange.trans ?_
    show localChange sol.point.x _ _ = 0
    rw [hx, localChange_blank]
  refine ⟨_, centred_update usual_valid attempted, centred_defined usual, fun inside => ?_⟩
  have alfa_le : _ ≤ sol.point.x[(0 : Fin 1)] := (inside 0).1
  rw [hx, entry_blank] at alfa_le
  exact not_le_undefined _ alfa_le

end Centred

end Optimizer

end MovingAsymptotes
