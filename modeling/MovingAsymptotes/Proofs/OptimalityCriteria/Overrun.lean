import MovingAsymptotes.Proofs.OptimalityCriteria.Bracket

/-!
# How far a step overruns its constraint

The design that a search ends with belongs to the last multiplier tried. If that has become the upper end of
the bracket, the design meets the linearised constraint. If it has become the lower end, the design violates it,
and it is the upper end, not farther away than the tolerance, whose candidate meets it. A larger multiplier takes
every variable down, by no more than the power law allows and never across the whole window. So the constraint is
met up to what the variables that it grows with can move while the multiplier goes up by the tolerance.

For small multipliers that is a good part of the window: a bracketed step may well violate its constraint.

* `CriteriaProblem.Tried`: the last multiplier tried.
* `CriteriaProblem.overrun`: what the tolerance of the multiplier amounts to in the constraint.
* `CriteriaProblem.step_meets_up_to_overrun`: what an update that found a bracket has achieved.
* `CriteriaProblem.bracketed_though_violated`: an update whose design violates the constraint.
-/

namespace MovingAsymptotes.CriteriaProblem

variable {n : Nat} {p : CriteriaProblem ℝ n} {s : CriteriaSettings ℝ}

/-- The last multiplier tried is positive and an end of the bracket, the upper one before any bisection. -/
structure Tried (b : Bracket ℝ n) : Prop where
  positive : 0 < b.multiplier
  isEnd : b.multiplier = b.lo ∨ b.multiplier = b.hi
  untouched : b.bisections = 0 → b.multiplier = b.hi

namespace Tried

variable {power : ℝ → ℝ → ℝ} {b next : Bracket ℝ n}

lemma start (hs : s.Valid) : Tried (p.startWith power s) where
  positive := hs.lambdaUpper_pos
  isEnd := .inr rfl
  untouched _ := rfl

/-- A bisection tries the middle of a bracket, which is positive since the upper end is. -/
lemma halves (hb : p.Brackets power s b) (hs : s.Valid) (hn : p.Halves power s (p.window s) b next) :
    Tried next := by
  have between := hb.lo_lt_hi hs
  have above := hb.lo_nonneg
  cases hn with
  | violated middle hm hv => exact ⟨by linarith, .inl rfl, nofun⟩
  | met middle hm hv => exact ⟨by linarith, .inr rfl, nofun⟩

end Tried

/-- The bracket that a step comes from, with the multiplier that was tried last. -/
lemma step_tried (hs : s.Valid) {rounds : Nat} {step : CriteriaStep ℝ n}
    (hstep : (p.step s rounds).serial = .done step) (bracketed : step.bracketed = true) :
    ∃ b, p.Brackets (· ^ ·) s b ∧ Tried b ∧ b.hi - b.lo ≤ s.bracketTolerance ∧
      step = ⟨b.x, p.window s, b.multiplier, b.bisections, true⟩ := by
  obtain ⟨met, b, search, rfl⟩ := p.stepWith_search (· ^ ·) s hstep bracketed
  let I (b : Bracket ℝ n) : Prop := p.Brackets (· ^ ·) s b ∧ Tried b
  have keeps (b next : Bracket ℝ n) (hb : I b) (wide : s.bracketTolerance < b.hi - b.lo)
      (halved : p.Halves (· ^ ·) s (p.window s) b next) : I next :=
    ⟨hb.1.halves wide hs halved, Tried.halves hb.1 hs halved⟩
  obtain ⟨⟨brackets, tried⟩, narrow⟩ := p.bisectWith_keeps (· ^ ·) s (p.window s) keeps
    ⟨.start hs met, .start hs⟩ search
  exact ⟨b, brackets, tried, narrow, rfl⟩

variable (p s) in
/-- How far the closed form puts a variable above its lower bound. -/
noncomputable def reach (lambda : ℝ) (j : Fin n) : ℝ :=
  (p.x[j] - p.bounds.lower[j]) * |-p.dfdx[j] / (lambda * p.dgdx[j])| ^ s.eta

variable (p s) in
/-- How far a variable comes down at most while the multiplier goes up by the tolerance. -/
noncomputable def descent (lambda : ℝ) (j : Fin n) : ℝ :=
  min ((p.window s).beta[j] - (p.window s).alfa[j])
    (p.reach s lambda j * (1 - (lambda / (lambda + s.bracketTolerance)) ^ s.eta))

variable (p s) in
/-- What the variables that the constraint grows with lose on that way. -/
noncomputable def overrun (lambda : ℝ) : ℝ := ∑ j : Fin n, max p.dgdx[j] 0 * p.descent s lambda j

section Descent

variable {l l' : ℝ}

/-- The closed form is a power law in the multiplier. -/
lemma reach_eq (hl : 0 < l) (hl' : 0 < l') (j : Fin n) :
    p.reach s l' j = p.reach s l j * (l / l') ^ s.eta := by
  have ratio : |-p.dfdx[j] / (l' * p.dgdx[j])| = |-p.dfdx[j] / (l * p.dgdx[j])| * (l / l') := by
    rw [← abs_of_pos (div_pos hl hl'), ← abs_mul]
    congr 1
    have cancel : l / l' * (l * p.dgdx[j])⁻¹ = (l' * p.dgdx[j])⁻¹ := by
      rw [mul_inv, mul_inv]
      field_simp
    rw [div_eq_mul_inv, div_eq_mul_inv, mul_assoc, mul_comm (l * p.dgdx[j])⁻¹, cancel]
  unfold reach
  rw [ratio, Real.mul_rpow (abs_nonneg _) (div_pos hl hl').le, mul_assoc]

lemma reach_nonneg (hx : p.bounds.Contains p.x) (j : Fin n) : 0 ≤ p.reach s l j :=
  mul_nonneg (sub_nonneg.2 (hx j).1) (Real.rpow_nonneg (abs_nonneg _) _)

/-- Clipping brings two points no farther apart, nor farther than the ends are. -/
lemma clipped_sub_le {alfa beta t t' : ℝ} (hab : alfa ≤ beta) (ht : t' ≤ t) :
    max (min t beta) alfa - max (min t' beta) alfa ≤ min (beta - alfa) (t - t') := by
  apply le_min
  · have upper : max (min t beta) alfa ≤ beta := max_le (min_le_right _ _) hab
    have lower : alfa ≤ max (min t' beta) alfa := le_max_right _ _
    linarith
  · have lower : min t beta - (t - t') ≤ min t' beta := by
      apply le_min
      · linarith [min_le_left t beta]
      · linarith [min_le_right t beta]
    have raised : max (min t beta) alfa ≤ max (min t' beta) alfa + (t - t') := by
      apply max_le
      · linarith [le_max_left (min t' beta) alfa]
      · linarith [le_max_right (min t' beta) alfa]
    linarith

variable (hx : p.bounds.Contains p.x) (hs : s.Valid) (hl : 0 < l) (hle : l ≤ l')
include hx hs hl hle

/-- A larger multiplier takes every variable down. -/
lemma candidate_le (j : Fin n) :
    (p.candidateWith (· ^ ·) s (p.window s) l')[j] ≤ (p.candidateWith (· ^ ·) s (p.window s) l)[j] := by
  have increasing : MonotoneOn (fun t : ℝ => t ^ s.eta) (Set.Ici 0) :=
    Real.monotoneOn_rpow_Ici_of_exponent_nonneg hs.eta_pos.le
  exact candidateWith_antitone hx increasing hl hle (p.window s) j

variable (hb : p.bounds.Proper) (near : l' ≤ l + s.bracketTolerance)
include hb near

/-- Within the tolerance a candidate comes down by no more than the descent. -/
lemma candidate_sub_le (j : Fin n) :
    (p.candidateWith (· ^ ·) s (p.window s) l)[j] - (p.candidateWith (· ^ ·) s (p.window s) l')[j] ≤
      p.descent s l j := by
  have hl' : 0 < l' := hl.trans_le hle
  have window := window_contains hb hx hs j
  have factor : (l / (l + s.bracketTolerance)) ^ s.eta ≤ (l / l') ^ s.eta := by
    apply Real.rpow_le_rpow (div_nonneg hl.le (hl'.le.trans near)) _ hs.eta_pos.le
    exact div_le_div_of_nonneg_left hl.le hl' near
  have at_most_one : (l / l') ^ s.eta ≤ 1 :=
    Real.rpow_le_one (div_nonneg hl.le hl'.le) ((div_le_one hl').2 hle) hs.eta_pos.le
  have nonneg := reach_nonneg (s := s) (l := l) hx j
  have scaled (lambda : ℝ) : p.scaledWith (· ^ ·) s lambda j = p.bounds.lower[j] + p.reach s lambda j := rfl
  have falls : p.scaledWith (· ^ ·) s l' j ≤ p.scaledWith (· ^ ·) s l j := by
    rw [scaled, scaled, reach_eq hl hl' j]
    linarith [mul_le_of_le_one_right nonneg at_most_one]
  rw [entry_candidateWith, entry_candidateWith]
  apply (clipped_sub_le (window.1.trans window.2) falls).trans
  apply min_le_min_left
  calc p.scaledWith (· ^ ·) s l j - p.scaledWith (· ^ ·) s l' j
      = p.reach s l j * (1 - (l / l') ^ s.eta) := by
        rw [scaled, scaled, reach_eq hl hl' j]
        ring
    _ ≤ p.reach s l j * (1 - (l / (l + s.bracketTolerance)) ^ s.eta) :=
        mul_le_mul_of_nonneg_left (by linarith) nonneg

/-- Within the tolerance the constraint grows by no more than the overrun. -/
lemma linearised_le_overrun (meets : p.MeetsAt (· ^ ·) s l') :
    p.linearised (p.candidateWith (· ^ ·) s (p.window s) l) ≤ p.overrun s l := by
  have grows (j : Fin n) : p.dgdx[j] * ((p.candidateWith (· ^ ·) s (p.window s) l)[j] - p.x[j]) ≤
      p.dgdx[j] * ((p.candidateWith (· ^ ·) s (p.window s) l')[j] - p.x[j]) +
        max p.dgdx[j] 0 * p.descent s l j := by
    have moved := candidate_sub_le hx hs hl hle hb near j
    have falls := candidate_le hx hs hl hle j
    have slope : p.dgdx[j] * ((p.candidateWith (· ^ ·) s (p.window s) l)[j] -
        (p.candidateWith (· ^ ·) s (p.window s) l')[j]) ≤ max p.dgdx[j] 0 * p.descent s l j :=
      (mul_le_mul_of_nonneg_right (le_max_left _ _) (sub_nonneg.2 falls)).trans
        (mul_le_mul_of_nonneg_left moved (le_max_right _ _))
    linarith
  have total := Finset.sum_le_sum fun j (_ : j ∈ Finset.univ) => grows j
  rw [Finset.sum_add_distrib] at total
  unfold MeetsAt linearised at *
  unfold overrun
  linarith

end Descent

/-- A constraint that grows with no variable is never overrun. -/
lemma overrun_eq_zero (falls : ∀ j : Fin n, p.dgdx[j] ≤ 0) (l : ℝ) : p.overrun s l = 0 := by
  apply Finset.sum_eq_zero
  intro j _
  rw [max_eq_right (falls j), zero_mul]

/-- An update that finds a bracket ends with the candidate of a positive multiplier, and its design meets the
linearised constraint up to the overrun at that multiplier. If it does not meet it altogether, the last bisection
has made the multiplier the lower end of the bracket, and the candidate of an upper end within the tolerance
does. That does not happen without a bisection, nor to a constraint that grows with no variable. -/
theorem step_meets_up_to_overrun (hb : p.bounds.Proper) (hx : p.bounds.Contains p.x) (hs : s.Valid)
    {rounds : Nat} {step : CriteriaStep ℝ n} (hstep : (p.step s rounds).serial = .done step)
    (bracketed : step.bracketed = true) :
    0 < step.multiplier ∧ step.x = p.candidate s (p.window s) step.multiplier ∧
      p.linearised step.x ≤ p.overrun s step.multiplier ∧
      (p.linearised step.x ≤ 0 ∨ ∃ hi, step.multiplier < hi ∧ hi ≤ s.lambdaUpper ∧
        hi ≤ step.multiplier + s.bracketTolerance ∧
        p.linearised (p.candidate s (p.window s) hi) ≤ 0) ∧
      (step.bisections = 0 → p.linearised step.x ≤ 0) ∧
      ((∀ j : Fin n, p.dgdx[j] ≤ 0) → p.linearised step.x ≤ 0) := by
  obtain ⟨b, brackets, tried, narrow, rfl⟩ := step_tried hs hstep bracketed
  have near : b.hi ≤ b.multiplier + s.bracketTolerance := by linarith [brackets.lo_le]
  have bound : p.linearised b.x ≤ p.overrun s b.multiplier := by
    rw [brackets.design]
    exact linearised_le_overrun hx hs tried.positive brackets.le_hi hb near brackets.meets
  have met (top : b.multiplier = b.hi) : p.linearised b.x ≤ 0 := by
    rw [brackets.design, top]
    exact brackets.meets
  refine ⟨tried.positive, brackets.design, bound, ?_, fun none => met (tried.untouched none), fun falls => ?_⟩
  · rcases brackets.le_hi.eq_or_lt with top | below
    · exact .inl (met top)
    · exact .inr ⟨b.hi, below, brackets.hi_le, near, brackets.meets⟩
  · rwa [overrun_eq_zero falls] at bound

/-- One variable in the middle of its bounds that a constraint without slack keeps from rising. -/
noncomputable def tight : CriteriaProblem ℝ 1 where
  x := .singleton 0.5
  bounds := ⟨.singleton 0, .singleton 1⟩
  dfdx := .singleton (-1)
  g := 0
  dgdx := .singleton 1

/-- The usual settings with a search that is over after one bisection. -/
noncomputable def coarseCriteria : CriteriaSettings ℝ :=
  { CriteriaSettings.default with lambdaUpper := 1, bracketTolerance := 0.5 }

namespace Tight

lemma proper : tight.bounds.Proper := by
  intro j
  rw [Fin.eq_zero j]
  exact one_pos

lemma contains : tight.bounds.Contains tight.x := by
  intro j
  rw [Fin.eq_zero j]
  show (0 : ℝ) ≤ 0.5 ∧ (0.5 : ℝ) ≤ 1
  norm_num

lemma valid : coarseCriteria.Valid :=
  { default_valid with
    lambdaUpper_pos := one_pos
    bracketTolerance_pos := by
      show (0 : ℝ) < 0.5
      norm_num }

lemma slope_ne (j : Fin 1) : tight.dgdx[j] ≠ 0 := by
  rw [Fin.eq_zero j]
  exact one_ne_zero

lemma linearised_eq (x : Vector ℝ 1) : tight.linearised x = x[(0 : Fin 1)] - 0.5 := by
  unfold linearised
  rw [Fin.sum_univ_one]
  show (0 : ℝ) + 1 * (x[(0 : Fin 1)] - 0.5) = _
  ring

/-- The largest multiplier leaves the variable where it is. -/
lemma meets : tight.MeetsAt (· ^ ·) coarseCriteria 1 := by
  have ratio : |-(-1 : ℝ) / (1 * 1)| ≤ 1 := by norm_num
  have lowered : _ ≤ (0.5 : ℝ) := candidateWith_le (j := 0) proper contains valid ratio
  unfold MeetsAt
  rw [linearised_eq]
  linarith

/-- Half of it takes the variable up to the end of the window. -/
lemma violated :
    tight.linearised (tight.candidateWith (· ^ ·) coarseCriteria (tight.window coarseCriteria) 0.5) = 0.2 := by
  have beta : (tight.window coarseCriteria).beta[(0 : Fin 1)] = 0.7 := by
    rw [entry_window_beta]
    show min ((0.5 : ℝ) + 0.2 * (1 - 0)) 1 = 0.7
    norm_num
  have alfa : (tight.window coarseCriteria).alfa[(0 : Fin 1)] = 0.3 := by
    rw [entry_window_alfa]
    show max ((0.5 : ℝ) - 0.2 * (1 - 0)) 0 = 0.3
    norm_num
  have root : (1.4 : ℝ) ≤ |-(-1 : ℝ) / (0.5 * 1)| ^ (0.5 : ℝ) := by
    rw [show |-(-1 : ℝ) / (0.5 * 1)| = 2 by norm_num, show (0.5 : ℝ) = 1 / 2 by norm_num,
      ← Real.sqrt_eq_rpow]
    exact Real.le_sqrt_of_sq_le (by norm_num)
  have scaled : (0.7 : ℝ) ≤ tight.scaledWith (· ^ ·) coarseCriteria 0.5 0 := by
    show (0.7 : ℝ) ≤ 0 + (0.5 - 0) * |-(-1 : ℝ) / (0.5 * 1)| ^ (0.5 : ℝ)
    linarith
  rw [linearised_eq, entry_candidateWith, alfa, beta, min_eq_right scaled]
  norm_num

/-- The only bisection makes the half the lower end, and its candidate the design. -/
lemma run : ∃ step, (tight.step coarseCriteria 1).serial = .done step ∧ step.bracketed = true ∧
    tight.linearised step.x = 0.2 := by
  let start := tight.startWith (· ^ ·) coarseCriteria
  have half : (start.lo + start.hi) / 2 = 0.5 := by
    show ((0 : ℝ) + 1) / 2 = 0.5
    norm_num
  have search : ∃ b, (tight.bisectWith (· ^ ·) coarseCriteria (tight.window coarseCriteria) 1 start).serial =
      .done b ∧ tight.linearised b.x = 0.2 := by
    rcases tight.bisectWith_cases (· ^ ·) coarseCriteria (tight.window coarseCriteria) start with
      ⟨narrow, -⟩ | ⟨-, -, next, halved, goes⟩
    · exfalso
      have width : (1 : ℝ) - 0 ≤ 0.5 := narrow
      norm_num at width
    · cases halved with
      | violated middle hm hv =>
        rw [half] at hm
        subst hm
        refine ⟨_, (goes 0).trans (congrArg Program.serial (if_neg ?_)), violated⟩
        show ¬ (0.5 : ℝ) < 1 - 0.5
        norm_num
      | met middle hm hv =>
        exfalso
        rw [hm, half, violated] at hv
        norm_num at hv
  obtain ⟨b, found, value⟩ := search
  refine ⟨⟨b.x, tight.window coarseCriteria, b.multiplier, b.bisections, true⟩, ?_, rfl, value⟩
  have bracketed := tight.stepWith_bracketed (· ^ ·) coarseCriteria 1 meets
  rw [found] at bracketed
  exact bracketed

end Tight

/-- A step that found a bracket may violate its constraint. -/
theorem bracketed_though_violated : tight.bounds.Proper ∧ tight.bounds.Contains tight.x ∧
    coarseCriteria.Valid ∧ (∀ j : Fin 1, tight.dgdx[j] ≠ 0) ∧
    ∃ rounds step, (tight.step coarseCriteria rounds).serial = .done step ∧ step.bracketed = true ∧
      tight.linearised step.x = 0.2 := by
  obtain ⟨step, run, bracketed, value⟩ := Tight.run
  exact ⟨Tight.proper, Tight.contains, Tight.valid, Tight.slope_ne, 1, step, run, bracketed, value⟩

/-- That step stays within its overrun. -/
theorem tight_meets_up_to_overrun : ∃ step, (tight.step coarseCriteria 1).serial = .done step ∧
    step.bracketed = true ∧ 0.2 ≤ tight.overrun coarseCriteria step.multiplier := by
  obtain ⟨step, run, bracketed, value⟩ := Tight.run
  obtain ⟨-, -, bound, -⟩ :=
    step_meets_up_to_overrun Tight.proper Tight.contains Tight.valid run bracketed
  rw [value] at bound
  exact ⟨step, run, bracketed, bound⟩

end MovingAsymptotes.CriteriaProblem
