import MovingAsymptotes.Proofs.Approximation
import MovingAsymptotes.Proofs.Partial.Program

/-!
# Approximations over reals with an undefined value

Settings and weights that are accepted are numbers. From bounds and designs that are numbers, the
asymptotes, the move limits and the coefficients of an approximation are those over the reals: an undefined
slope has no part above zero and none below, so it counts as zero. Only the right-hand sides of the
approximation keep an undefined value of a constraint.

* `Settings.exists_lifted`: settings that are accepted.
* `Asymptotes.advance_lifted`, `Asymptotes.moveLimits_lifted`: the box around a design.
* `Approximation.coefficients_lifted`: slopes that may be undefined.
* `Approximation.build_defined`: the approximation of constraints with values.
-/

namespace MovingAsymptotes

open PartialReal

variable {n m : Nat}

section Settings

def CriteriaSettings.lifted (s : CriteriaSettings ℝ) : CriteriaSettings PartialReal :=
  ⟨real s.eta, real s.moveLimit, real s.lambdaUpper, real s.bracketTolerance, s.requireBracket⟩

def Settings.lifted (s : Settings ℝ) : Settings PartialReal where
  asyinit := real s.asyinit
  asyincr := real s.asyincr
  asydecr := real s.asydecr
  albefa := real s.albefa
  mmamove := real s.mmamove
  raa0 := real s.raa0
  epsimin := real s.epsimin
  dualMaxInner := s.dualMaxInner
  primalDualMaxInner := s.primalDualMaxInner
  maxBacktracks := s.maxBacktracks
  method := s.method
  oc := s.oc.lifted

lemma isPositive_real {a : ℝ} (h : 0 < a) : IsPositive (real a) := ⟨h, rfl⟩

lemma exists_of_isPositive {a : PartialReal} (h : IsPositive a) : ∃ r, a = real r ∧ 0 < r := by
  cases a with
  | real r => exact ⟨r, rfl, h.1⟩
  | undefined => exact absurd h.1 (not_lt_undefined _)

lemma exists_of_requirePositive {name : String} {a : PartialReal} (h : requirePositive name a = .ok ()) :
    ∃ r, a = real r ∧ 0 < r := by
  unfold requirePositive at h
  split at h
  · next hp => exact exists_of_isPositive hp
  · cases h

lemma exists_of_requireUnitInterval {name : String} {a : PartialReal}
    (h : requireUnitInterval name a = .ok ()) : ∃ r, a = real r ∧ 0 < r ∧ r < 1 := by
  unfold requireUnitInterval at h
  split at h
  · next hp =>
    cases a with
    | real r => exact ⟨r, rfl, hp⟩
    | undefined => exact absurd hp.1 (not_lt_undefined _)
  · cases h

lemma CriteriaSettings.exists_lifted {s : CriteriaSettings PartialReal} (h : s.validate = .ok ()) :
    ∃ s' : CriteriaSettings ℝ, s = s'.lifted ∧ s'.Valid := by
  obtain ⟨eta, moveLimit, lambdaUpper, bracketTolerance, requireBracket⟩ := s
  unfold validate at h
  simp only [check_bind_eq_ok_iff] at h
  obtain ⟨h₁, h₂, h₃, h₄⟩ := h
  obtain ⟨eta, rfl, eta_pos⟩ := exists_of_requirePositive h₁
  obtain ⟨moveLimit, rfl, moveLimit_pos⟩ := exists_of_requirePositive h₂
  obtain ⟨lambdaUpper, rfl, lambdaUpper_pos⟩ := exists_of_requirePositive h₃
  obtain ⟨bracketTolerance, rfl, bracketTolerance_pos⟩ := exists_of_requirePositive h₄
  exact ⟨⟨eta, moveLimit, lambdaUpper, bracketTolerance, requireBracket⟩, rfl,
    ⟨eta_pos, moveLimit_pos, lambdaUpper_pos, bracketTolerance_pos⟩⟩

/-- Settings that are accepted are numbers. -/
theorem Settings.exists_lifted {s : Settings PartialReal} (h : s.validate = .ok ()) :
    ∃ s' : Settings ℝ, s = s'.lifted ∧ s'.Valid := by
  obtain ⟨asyinit, asyincr, asydecr, albefa, mmamove, raa0, epsimin, dual, primalDual, backtracks, method,
    oc⟩ := s
  unfold validate at h
  simp only [check_bind_eq_ok_iff] at h
  obtain ⟨h₁, h₂, h₃, h₄, h₅, h₆, h₇, h⟩ := h
  split at h
  · nomatch h
  · next hcap =>
    obtain ⟨dualMaxInner_ne, primalDualMaxInner_ne⟩ := not_or.1 hcap
    obtain ⟨asyinit, rfl, asyinit_pos⟩ := exists_of_requirePositive h₁
    obtain ⟨asyincr, rfl, asyincr_pos⟩ := exists_of_requirePositive h₂
    obtain ⟨asydecr, rfl, asydecr_pos⟩ := exists_of_requirePositive h₃
    obtain ⟨albefa, rfl, albefa_pos, albefa_lt_one⟩ := exists_of_requireUnitInterval h₄
    obtain ⟨mmamove, rfl, mmamove_pos⟩ := exists_of_requirePositive h₅
    obtain ⟨raa0, rfl, raa0_pos⟩ := exists_of_requirePositive h₆
    obtain ⟨epsimin, rfl, epsimin_pos, epsimin_lt_one⟩ := exists_of_requireUnitInterval h₇
    obtain ⟨criteria, rfl, oc⟩ := CriteriaSettings.exists_lifted h
    exact ⟨⟨asyinit, asyincr, asydecr, albefa, mmamove, raa0, epsimin, dual, primalDual, backtracks, method,
      criteria⟩, rfl, ⟨asyinit_pos, asyincr_pos, asydecr_pos, albefa_pos, albefa_lt_one, mmamove_pos, raa0_pos,
        epsimin_pos, epsimin_lt_one, dualMaxInner_ne, primalDualMaxInner_ne, oc⟩⟩

/-- Settings that are accepted over the reals are accepted. -/
lemma Settings.Valid.validate_lifted {s : Settings ℝ} (hs : s.Valid) : s.lifted.validate = .ok () := by
  have positive : ∀ {name : String} {a : ℝ}, 0 < a → requirePositive name (real a) = .ok () :=
    fun h => if_pos (isPositive_real h)
  have unit : ∀ {name : String} {a : ℝ}, 0 < a → a < 1 → requireUnitInterval name (real a) = .ok () :=
    fun h h' => if_pos ⟨h, h'⟩
  have capped : ¬ (s.lifted.dualMaxInner = 0 ∨ s.lifted.primalDualMaxInner = 0) :=
    not_or.2 ⟨hs.dualMaxInner_ne, hs.primalDualMaxInner_ne⟩
  unfold validate CriteriaSettings.validate
  simp only [check_bind_eq_ok_iff]
  refine ⟨positive hs.asyinit_pos, positive hs.asyincr_pos, positive hs.asydecr_pos,
    unit hs.albefa_pos hs.albefa_lt_one, positive hs.mmamove_pos, positive hs.raa0_pos,
    unit hs.epsimin_pos hs.epsimin_lt_one, ?_⟩
  rw [if_neg capped]
  simp only [check_bind_eq_ok_iff]
  exact ⟨positive hs.oc.eta_pos, positive hs.oc.moveLimit_pos, positive hs.oc.lambdaUpper_pos,
    positive hs.oc.bracketTolerance_pos⟩

end Settings

section Weights

def Weights.lifted (wt : Weights ℝ m) : Weights PartialReal m :=
  ⟨real wt.a0, real wt.b0, lift wt.a, lift wt.c, lift wt.d⟩

/-- No weight is undefined. -/
structure WeightDraft.Defined (w : WeightDraft PartialReal) : Prop where
  a0 : IsNumber w.a0
  b0 : IsNumber w.b0
  a : ∀ v ∈ w.a, IsNumber v
  c : ∀ v ∈ w.c, IsNumber v
  d : ∀ v ∈ w.d, IsNumber v

lemma WeightDraft.default_defined (m : Nat) : (default m : WeightDraft PartialReal).Defined := by
  unfold default
  constructor
  case a0 => exact isNumber_real 1
  case b0 => exact isNumber_real 1
  all_goals
    intro v hv
    rw [(Array.mem_replicate.1 hv).2]
    exact isNumber_real _

lemma exists_lift_of_mem {v : Vector PartialReal m} (h : ∀ a ∈ v.toArray, IsNumber a) :
    ∃ u, v = lift u :=
  exists_lift fun i => h _ (Vector.getElem_mem i.isLt).val

/-- Defined weights that are accepted are weights that are accepted over the reals. -/
theorem WeightDraft.exists_lifted {w : WeightDraft PartialReal} (hw : w.Defined) {wt : Weights PartialReal m}
    (h : w.validate m = .ok wt) : ∃ wt' : Weights ℝ m, wt = wt'.lifted ∧ wt'.Valid := by
  obtain ⟨hs, hb, hd⟩ := validate_eq_ok_iff_positive.1 h
  obtain rfl := sized_eq_ok_iff.1 hs
  obtain ⟨a0, b0, a, c, d⟩ := wt
  obtain ⟨a0, rfl⟩ := isNumber_iff.1 hw.a0
  obtain ⟨b0, rfl, b0_pos⟩ := exists_of_isPositive hb
  obtain ⟨a, rfl⟩ := exists_lift_of_mem hw.a
  obtain ⟨c, rfl⟩ := exists_lift_of_mem hw.c
  obtain ⟨d, rfl⟩ := exists_lift_of_mem hw.d
  refine ⟨⟨a0, b0, a, c, d⟩, rfl, b0_pos, fun i => ?_⟩
  have positive := (hd i).1
  rw [entry_lift] at positive
  exact positive

/-- Weights that are accepted over the reals are accepted. -/
lemma WeightDraft.validate_lifted {w : WeightDraft PartialReal} {wt : Weights ℝ m} (hw : wt.Valid)
    (hs : w.sized m = .ok wt.lifted) : w.validate m = .ok wt.lifted := by
  refine validate_eq_ok_iff_positive.2 ⟨hs, isPositive_real hw.b0_pos, fun i => ?_⟩
  unfold Weights.lifted
  rw [entry_lift]
  exact isPositive_real (hw.d_pos i)

end Weights

section Geometry

def Bounds.lifted (b : Bounds ℝ n) : Bounds PartialReal n := ⟨lift b.lower, lift b.upper⟩

def Asymptotes.lifted (asy : Asymptotes ℝ n) : Asymptotes PartialReal n := ⟨lift asy.low, lift asy.upp⟩

def MoveLimits.lifted (l : MoveLimits ℝ n) : MoveLimits PartialReal n := ⟨lift l.alfa, lift l.beta⟩

def History.lifted (h : History ℝ n) : History PartialReal n :=
  ⟨lift h.current, lift h.previous, lift h.beforePrevious⟩

variable (asy : Asymptotes ℝ n) (h : History ℝ n) (x : Vector ℝ n) (b : Bounds ℝ n) (s : Settings ℝ)

lemma Bounds.range_lifted (j : Fin n) : b.lifted.range j = real (b.range j) := by
  unfold Bounds.range lifted
  rw [entry_lift, entry_lift, real_sub]

lemma Asymptotes.above_lifted (j : Fin n) : asy.lifted.above (lift x) j = real (asy.above x j) := by
  unfold above lifted
  rw [entry_lift, entry_lift, real_sub]

lemma Asymptotes.below_lifted (j : Fin n) : asy.lifted.below (lift x) j = real (asy.below x j) := by
  unfold below lifted
  rw [entry_lift, entry_lift, real_sub]

lemma Settings.trendFactor_lifted (trend : ℝ) :
    s.lifted.trendFactor (real trend) = real (s.trendFactor trend) := by
  unfold trendFactor
  rw [zero_eq, one_eq, apply_ite real, apply_ite real]
  exact if_congr Iff.rfl rfl (if_congr Iff.rfl rfl rfl)

namespace Asymptotes

lemma initial_lifted : initial (lift x) b.lifted s.lifted = (initial x b s).lifted := by
  unfold initial
  simp only [entry_lift, Bounds.range_lifted, Settings.lifted, real_mul, real_add, real_sub, ofFn_real]
  rfl

lemma trend_lifted (j : Fin n) : trend h.lifted j = real (trend h j) := by
  unfold trend History.lifted
  simp only [entry_lift, real_sub, real_mul]

lemma adapted_lifted : asy.lifted.adapted h.lifted b.lifted s.lifted = (asy.adapted h b s).lifted := by
  unfold adapted
  simp only [trend_lifted, Settings.trendFactor_lifted, Bounds.range_lifted]
  unfold lifted History.lifted
  simp only [entry_lift, ofScientific_eq, real_mul, real_add, real_sub, larger_real, smaller_real, ofFn_real]

/-- The asymptotes of an iteration are those over the reals. -/
theorem advance_lifted (iteration : Nat) :
    asy.lifted.advance iteration h.lifted b.lifted s.lifted = (asy.advance iteration h b s).lifted := by
  unfold advance
  split
  · exact initial_lifted h.current b s
  · exact adapted_lifted asy h b s

/-- So are the move limits. -/
theorem moveLimits_lifted :
    asy.lifted.moveLimits (lift x) b.lifted s.lifted = (asy.moveLimits x b s).lifted := by
  unfold moveLimits
  simp only [Bounds.range_lifted]
  unfold lifted Bounds.lifted MoveLimits.lifted Settings.lifted
  simp only [entry_lift, real_mul, real_add, real_sub, larger_real, smaller_real, ofFn_real]

end Asymptotes

end Geometry

section Approximation

def Approximation.lifted (a : Approximation ℝ n m) : Approximation PartialReal n m where
  asymptotes := a.asymptotes.lifted
  limits := a.limits.lifted
  p0 := lift a.p0
  q0 := lift a.q0
  p := liftRows a.p
  q := liftRows a.q
  b := lift a.b
  nGlobal := a.nGlobal

def Lagrangian.lifted (l : Lagrangian ℝ n) : Lagrangian PartialReal n := ⟨lift l.plam, lift l.qlam⟩

/-- The gradients with zero for every value that is undefined. -/
def Gradients.orZero (d : Gradients PartialReal n m) : Gradients ℝ n m where
  dfdx := d.dfdx.map PartialReal.orZero
  g := d.g.map PartialReal.orZero
  dgdx := d.dgdx.map fun row => row.map PartialReal.orZero

namespace Gradients

variable (d : Gradients PartialReal n m)

lemma orZero_dfdx (j : Fin n) : d.orZero.dfdx[j] = d.dfdx[j].orZero := entry_map _ _ j

lemma orZero_g (i : Fin m) : d.orZero.g[i] = d.g[i].orZero := entry_map _ _ i

lemma orZero_dgdx (j : Fin n) (i : Fin m) : d.orZero.dgdx[j][i] = d.dgdx[j][i].orZero := by
  unfold orZero
  rw [entry_map, entry_map]

end Gradients

lemma positivePart_orZero (a : PartialReal) : positivePart a = real (positivePart a.orZero) := by
  cases a with
  | real a => exact larger_real a 0
  | undefined =>
    unfold positivePart PartialReal.orZero
    rw [undefined_larger, larger_eq_max, max_self]
    rfl

lemma negativePart_orZero (a : PartialReal) : negativePart a = real (negativePart a.orZero) := by
  cases a with
  | real a => exact larger_real (-a) 0
  | undefined =>
    unfold negativePart PartialReal.orZero
    rw [neg_undefined, undefined_larger, larger_eq_max, neg_zero, max_self]
    rfl

/-- An undefined slope is shared out as zero is. -/
lemma slopeShares_orZero (raa0 : ℝ) {gap : ℝ} (hg : gap ≠ 0) (slope : PartialReal) :
    slopeShares (real raa0) (real gap) slope =
      (real (slopeShares raa0 gap slope.orZero).1, real (slopeShares raa0 gap slope.orZero).2) := by
  unfold slopeShares
  simp only [positivePart_orZero, negativePart_orZero, ofScientific_eq, real_add, real_mul, real_div hg]

namespace Approximation

section Coefficients

variable (asy : Asymptotes ℝ n) (s : Settings ℝ) (x : Vector ℝ n) (j : Fin n) (slope : PartialReal)

lemma gap_lifted : larger (asy.lifted.upp[j] - asy.lifted.low[j]) (minAsymptoteGap : PartialReal) =
    real (larger (asy.upp[j] - asy.low[j]) minAsymptoteGap) := by
  unfold Asymptotes.lifted
  rw [entry_lift, entry_lift]
  exact larger_real _ _

lemma upperCoefficient_lifted : upperCoefficient asy.lifted s.lifted (lift x) j slope =
    real (upperCoefficient asy s x j slope.orZero) := by
  unfold upperCoefficient
  simp only [gap_lifted, Asymptotes.above_lifted, real_mul]
  have shares := slopeShares_orZero s.raa0 (gap_pos asy j).ne' slope
  exact congrArg (fun q : PartialReal × PartialReal => q.1 * _) shares

lemma lowerCoefficient_lifted : lowerCoefficient asy.lifted s.lifted (lift x) j slope =
    real (lowerCoefficient asy s x j slope.orZero) := by
  unfold lowerCoefficient
  simp only [gap_lifted, Asymptotes.below_lifted, real_mul]
  have shares := slopeShares_orZero s.raa0 (gap_pos asy j).ne' slope
  exact congrArg (fun q : PartialReal × PartialReal => q.2 * _) shares

/-- The coefficients are numbers, those of the slopes with zero for every undefined one. -/
theorem coefficients_lifted (d : Gradients PartialReal n m) (limits : MoveLimits ℝ n) (nGlobal : Nat) :
    coefficients (lift x) d asy.lifted limits.lifted nGlobal s.lifted =
      (coefficients x d.orZero asy limits nGlobal s).lifted := by
  unfold coefficients lifted Gradients.orZero
  simp only [upperCoefficient_lifted, lowerCoefficient_lifted, entry_map, ofFn_real, Mat.ofFn_real, zero_eq,
    lift_replicate]

end Coefficients

section Sums

variable {a : Approximation ℝ n m} {x : Vector ℝ n}

lemma asymptotes_lifted : a.lifted.asymptotes = a.asymptotes.lifted := rfl

lemma limits_lifted : a.lifted.limits = a.limits.lifted := rfl

lemma p_lifted : a.lifted.p = liftRows a.p := rfl

lemma q_lifted : a.lifted.q = liftRows a.q := rfl

lemma b_lifted : a.lifted.b = lift a.b := rfl

/-- Away from the poles the values of the constraints are numbers. -/
lemma localSums_lifted (ha : a.WellPosed) (hx : a.limits.Contains x) :
    a.lifted.localSums (lift x) = lift (a.localSums x) := by
  have above := fun j : Fin n => real_div (a := 1) (ha.above_pos hx j).ne'
  have below := fun j : Fin n => real_div (a := 1) (ha.below_pos hx j).ne'
  unfold localSums
  simp only [asymptotes_lifted, p_lifted, q_lifted, Asymptotes.above_lifted, Asymptotes.below_lifted, one_eq,
    above, below, entry_liftRows, entry_lift, real_mul, real_add, sumOver_real, ofFn_real]

lemma lagrangian_lifted (lambda : Vector ℝ m) :
    a.lifted.lagrangian (lift lambda) = (a.lagrangian lambda).lifted := by
  unfold lagrangian Lagrangian.lifted lifted
  simp only [Mat.mulVec_lift, lift_zipWith fun _ _ => real_add _ _]

variable (ha : a.WellPosed) (hx : a.limits.Contains x) (l : Lagrangian ℝ n)
include ha hx

lemma lagrangianGradient_lifted :
    a.lifted.lagrangianGradient (lift x) l.lifted = lift (a.lagrangianGradient x l) := by
  have above := fun (c : ℝ) (j : Fin n) => real_div (a := c) (mul_self_ne_zero.2 (ha.above_pos hx j).ne')
  have below := fun (c : ℝ) (j : Fin n) => real_div (a := c) (mul_self_ne_zero.2 (ha.below_pos hx j).ne')
  unfold lagrangianGradient Lagrangian.lifted
  simp only [asymptotes_lifted, Asymptotes.above_lifted, Asymptotes.below_lifted, entry_lift, real_mul, above,
    below, real_sub, ofFn_real]

lemma lagrangianCurvature_lifted (j : Fin n) :
    a.lifted.lagrangianCurvature (lift x) l.lifted j = real (a.lagrangianCurvature x l j) := by
  have above := (ha.above_pos hx j).ne'
  have below := (ha.below_pos hx j).ne'
  unfold lagrangianCurvature Lagrangian.lifted
  simp only [asymptotes_lifted, Asymptotes.above_lifted, Asymptotes.below_lifted, entry_lift, real_mul,
    real_div (mul_ne_zero (mul_self_ne_zero.2 above) above),
    real_div (mul_ne_zero (mul_self_ne_zero.2 below) below), real_add, ofScientific_eq]

lemma slopeAt_lifted (i : Fin m) (j : Fin n) : a.lifted.slopeAt (lift x) i j = real (a.slopeAt x i j) := by
  unfold slopeAt
  simp only [asymptotes_lifted, p_lifted, q_lifted, Asymptotes.above_lifted, Asymptotes.below_lifted,
    entry_liftRows, entry_lift, real_mul, real_div (mul_self_ne_zero.2 (ha.above_pos hx j).ne'),
    real_div (mul_self_ne_zero.2 (ha.below_pos hx j).ne'), real_sub]

end Sums

section Build

variable {x : Vector ℝ n} {b : Bounds ℝ n} {asy : Asymptotes ℝ n} {limits : MoveLimits ℝ n}
  {s : Settings ℝ} (d : Gradients PartialReal n m) (nGlobal : Nat)

/-- The values of the constraints matter only for the right-hand sides. -/
lemma build_lifted (ha : asy.Encloses x) (hl : limits.Nested asy b x) (hs : s.Valid) :
    (build (lift x) d asy.lifted limits.lifted nGlobal s.lifted : Program PartialReal _ _) =
      Program.reduceAll .sum (lift ((coefficients x d.orZero asy limits nGlobal s).localSums x)) >>= fun sums =>
        .pure { (coefficients x d.orZero asy limits nGlobal s).lifted with b := Vector.zipWith (· - ·) sums d.g } := by
  have well : (coefficients x d.orZero asy limits nGlobal s).WellPosed :=
    { around_wellPosed d.orZero nGlobal ha hl hs with }
  have hx : limits.Contains x := fun j => ⟨hl.alfa_le j, hl.le_beta j⟩
  unfold build
  rw [coefficients_lifted]
  dsimp only
  rw [localSums_lifted well hx]
  rfl

/-- If the constraints have values, the approximation around a design consists of numbers. -/
theorem build_defined (ha : asy.Encloses x) (hl : limits.Nested asy b x) (hs : s.Valid)
    (hg : ∀ i : Fin m, IsNumber d.g[i]) :
    (build (lift x) d asy.lifted limits.lifted nGlobal s.lifted).Defined fun a =>
      ∃ a' : Approximation ℝ n m, a = a'.lifted ∧ a'.WellPosed ∧ a'.limits = limits := by
  obtain ⟨g, hg⟩ := exists_lift hg
  rw [build_lifted d nGlobal ha hl hs, hg]
  refine (Program.defined_reduceAll .sum _).bind fun sums hsums => ?_
  obtain ⟨sums, rfl, -⟩ := hsums
  refine ⟨{ coefficients x d.orZero asy limits nGlobal s with b := Vector.zipWith (· - ·) sums g }, ?_,
    { around_wellPosed d.orZero nGlobal ha hl hs with }, rfl⟩
  unfold lifted
  rw [lift_zipWith fun _ _ => rfl]

/-- A single rank builds the approximation that it builds over the reals. -/
lemma build_returns (ha : asy.Encloses x) (hl : limits.Nested asy b x) (hs : s.Valid)
    (hg : ∀ i : Fin m, IsNumber d.g[i]) :
    (build (lift x) d asy.lifted limits.lifted nGlobal s.lifted).Returns
      (· = (around x d.orZero asy limits nGlobal s).lifted) := by
  have values : d.g = lift d.orZero.g := by
    obtain ⟨g, hg⟩ := exists_lift hg
    refine lift_eq_iff.2 fun i => ?_
    rw [Gradients.orZero_g, hg, entry_lift]
    rfl
  rw [build_lifted d nGlobal ha hl hs, values]
  refine (Program.returns_reduceAll .sum _).bind ?_
  rintro _ rfl
  refine Program.returns_pure ?_
  unfold around lifted
  rw [lift_zipWith fun _ _ => rfl]

end Build

end Approximation

end Approximation

end MovingAsymptotes
