import MovingAsymptotes.Proofs.OptimalityCriteria.Bracket

/-!
# The verdict that a multiplier is not bracketed

An update gives up on the search if the candidate of the largest multiplier violates the linearised
constraint. The window holds a design that meets the constraint if and only if one of its corners does: the
one at the lower end where the constraint grows with a variable, and at the upper end where it falls. The
verdict is about a candidate that may lie elsewhere, since a large multiplier takes every variable down. What
the candidate is away from the corner counts against the constraint, weighted by the slopes.

So a constraint that cannot be met is always found out, but the verdict may be given on one that can. It is
right for certain only if the largest multiplier takes the variables to the corner.

* `CriteriaProblem.Unbracketed`: the verdict.
* `CriteriaProblem.linearised_eq_corner`: the constraint within the window.
* `CriteriaProblem.unbracketed_iff_corner`: when the verdict is given, and when it would be right.
-/

namespace MovingAsymptotes.CriteriaProblem

variable {n : Nat} {p : CriteriaProblem ℝ n} {s : CriteriaSettings ℝ}

variable (p s) in
/-- An update says that the multiplier is not bracketed: by an error if the settings ask for it, and else by a
step that says so. -/
def Unbracketed (rounds : Nat) : Prop :=
  if s.requireBracket then
    ∃ violation, (p.step s rounds).serial = .failed (.unbracketedMultiplier s.lambdaUpper violation)
  else ∃ step, (p.step s rounds).serial = .done step ∧ step.bracketed = false

variable (p) in
/-- The corner of a box at which the linearised constraint is least. -/
noncomputable def corner (limits : MoveLimits ℝ n) : Vector ℝ n :=
  .ofFn fun j => if 0 < p.dgdx[j] then limits.alfa[j] else limits.beta[j]

lemma entry_corner (limits : MoveLimits ℝ n) (j : Fin n) :
    (p.corner limits)[j] = if 0 < p.dgdx[j] then limits.alfa[j] else limits.beta[j] :=
  entry_ofFn _ j

variable (p s) in
/-- How much the candidate of the largest multiplier loses to the corner. -/
noncomputable def excess : ℝ :=
  ∑ j : Fin n, |p.dgdx[j]| *
    |(p.candidate s (p.window s) s.lambdaUpper)[j] - (p.corner (p.window s))[j]|

/-- The verdict rests on the candidate of the largest multiplier alone. -/
lemma unbracketed_iff (rounds : Nat) :
    p.Unbracketed s rounds ↔ 0 < p.linearised (p.candidate s (p.window s) s.lambdaUpper) := by
  unfold Unbracketed
  rcases lt_or_ge 0 (p.linearised (p.candidate s (p.window s) s.lambdaUpper)) with hv | hv
  · refine iff_of_true ?_ hv
    split
    · next required => exact ⟨_, p.step_refused s required rounds hv⟩
    · next spared =>
      exact ⟨_, p.stepWith_unbracketed (· ^ ·) s (Bool.eq_false_iff.2 spared) rounds hv, rfl⟩
  · refine iff_of_false ?_ hv.not_gt
    rcases p.stepWith_met (· ^ ·) s rounds hv with out | ⟨b, -, found⟩
    · rw [show (p.step s rounds).serial = .unfinished from out]
      split <;> simp
    · rw [show (p.step s rounds).serial = _ from found]
      split <;> simp

section Corner

variable {limits : MoveLimits ℝ n} {x : Vector ℝ n}

lemma corner_contains (hl : ∀ j : Fin n, limits.alfa[j] ≤ limits.beta[j]) :
    limits.Contains (p.corner limits) := by
  intro j
  rw [entry_corner]
  split
  · exact ⟨le_refl _, hl j⟩
  · exact ⟨hl j, le_refl _⟩

/-- Within the box the constraint exceeds its value at the corner by what the variables are away from there. -/
lemma linearised_eq_corner (hx : limits.Contains x) :
    p.linearised x = p.linearised (p.corner limits) +
      ∑ j : Fin n, |p.dgdx[j]| * |x[j] - (p.corner limits)[j]| := by
  have away (j : Fin n) : p.dgdx[j] * (x[j] - p.x[j]) = p.dgdx[j] * ((p.corner limits)[j] - p.x[j]) +
      |p.dgdx[j]| * |x[j] - (p.corner limits)[j]| := by
    rw [entry_corner]
    split
    · next rises =>
      rw [abs_of_pos rises, abs_of_nonneg (sub_nonneg.2 (hx j).1)]
      ring
    · next falls =>
      rw [abs_of_nonpos (not_lt.1 falls), abs_of_nonpos (sub_nonpos.2 (hx j).2)]
      ring
  unfold linearised
  rw [Finset.sum_congr rfl fun j _ => away j, Finset.sum_add_distrib, add_assoc]

/-- The box holds a design that meets the constraint unless the corner violates it. -/
lemma forall_violates_iff (hl : ∀ j : Fin n, limits.alfa[j] ≤ limits.beta[j]) :
    (∀ x, limits.Contains x → 0 < p.linearised x) ↔ 0 < p.linearised (p.corner limits) := by
  refine ⟨fun h => h _ (corner_contains hl), fun h x hx => ?_⟩
  rw [linearised_eq_corner hx]
  exact add_pos_of_pos_of_nonneg h
    (Finset.sum_nonneg fun j _ => mul_nonneg (abs_nonneg _) (abs_nonneg _))

end Corner

section Excess

lemma window_lt (hb : p.bounds.Proper) (hx : p.bounds.Contains p.x) (hs : s.Valid) (j : Fin n) :
    (p.window s).alfa[j] < (p.window s).beta[j] := by
  have move := mul_pos hs.moveLimit_pos (hb.range_pos j)
  obtain ⟨below, above⟩ := hx j
  rw [entry_window_alfa, entry_window_beta]
  exact max_lt (lt_min (by linarith) (by linarith)) (lt_min (by linarith) (hb j))

lemma clipped_eq_alfa_iff {alfa beta t : ℝ} (h : alfa < beta) : max (min t beta) alfa = alfa ↔ t ≤ alfa := by
  rw [max_eq_right_iff, min_le_iff, or_iff_left h.not_ge]

lemma clipped_eq_beta_iff {alfa beta t : ℝ} (h : alfa < beta) : max (min t beta) alfa = beta ↔ beta ≤ t := by
  rw [max_eq_iff, or_iff_left fun top => h.ne top.1, min_eq_right_iff, and_iff_left_of_imp]
  exact fun top => le_min (h.le.trans top) h.le

lemma excess_nonneg : 0 ≤ p.excess s :=
  Finset.sum_nonneg fun _ _ => mul_nonneg (abs_nonneg _) (abs_nonneg _)

/-- Nothing is lost if the largest multiplier takes every variable to the corner or past it. -/
lemma excess_eq_zero_iff (hd : ∀ j : Fin n, p.dgdx[j] ≠ 0)
    (hw : ∀ j : Fin n, (p.window s).alfa[j] < (p.window s).beta[j]) :
    p.excess s = 0 ↔ ∀ j : Fin n,
      (0 < p.dgdx[j] → p.scaledWith (· ^ ·) s s.lambdaUpper j ≤ (p.window s).alfa[j]) ∧
        (p.dgdx[j] < 0 → (p.window s).beta[j] ≤ p.scaledWith (· ^ ·) s s.lambdaUpper j) := by
  unfold excess
  rw [Finset.sum_eq_zero_iff_of_nonneg fun _ _ => mul_nonneg (abs_nonneg _) (abs_nonneg _)]
  simp only [Finset.mem_univ, forall_true_left]
  refine forall_congr' fun j => ?_
  rw [mul_eq_zero, or_iff_right (abs_ne_zero.2 (hd j)), abs_eq_zero, sub_eq_zero]
  have entry : (p.candidate s (p.window s) s.lambdaUpper)[j] = _ :=
    entry_candidateWith (· ^ ·) (p.window s) s.lambdaUpper j
  rw [entry, entry_corner]
  rcases (hd j).lt_or_gt with falls | rises
  · rw [if_neg falls.not_gt, clipped_eq_beta_iff (hw j)]
    exact ⟨fun h => ⟨fun rises => absurd rises falls.not_gt, fun _ => h⟩, fun h => h.2 falls⟩
  · rw [if_pos rises, clipped_eq_alfa_iff (hw j)]
    exact ⟨fun h => ⟨fun _ => h, fun falls => absurd falls rises.not_gt⟩, fun h => h.1 rises⟩

end Excess

/-- The constraint can be met within the window if and only if the corner meets it. The verdict is given if and
only if the corner, with the excess on top, does not. So it is given whenever the constraint cannot be met, and
it is given on other constraints as well unless there is no excess: unless the largest multiplier takes every
variable to the end of its window that does most for the constraint, or past it. -/
theorem unbracketed_iff_corner (hb : p.bounds.Proper) (hx : p.bounds.Contains p.x) (hs : s.Valid)
    (hd : ∀ j : Fin n, p.dgdx[j] ≠ 0) (rounds : Nat) :
    ((∀ x, (p.window s).Contains x → 0 < p.linearised x) ↔ 0 < p.linearised (p.corner (p.window s))) ∧
      (p.Unbracketed s rounds ↔ 0 < p.linearised (p.corner (p.window s)) + p.excess s) ∧
      0 ≤ p.excess s ∧
      (p.excess s = 0 ↔ ∀ j : Fin n,
        (0 < p.dgdx[j] → p.scaledWith (· ^ ·) s s.lambdaUpper j ≤ (p.window s).alfa[j]) ∧
          (p.dgdx[j] < 0 → (p.window s).beta[j] ≤ p.scaledWith (· ^ ·) s s.lambdaUpper j)) := by
  have hw := window_lt hb hx hs
  have candidate := linearised_eq_corner (p := p)
    (candidate_contains (p := p) (s := s) (fun j => (hw j).le) s.lambdaUpper)
  refine ⟨forall_violates_iff fun j => (hw j).le, ?_, excess_nonneg, excess_eq_zero_iff hd hw⟩
  rw [unbracketed_iff, candidate]
  rfl

/-- One variable in the middle of its bounds and a constraint that falls with it. -/
noncomputable def falling : CriteriaProblem ℝ 1 where
  x := .singleton 0.5
  bounds := ⟨.singleton 0, .singleton 1⟩
  dfdx := .singleton (-1)
  g := 0.1
  dgdx := .singleton (-1)

/-- The usual settings, but for the error that they ask for. -/
noncomputable def strictCriteria : CriteriaSettings ℝ := { CriteriaSettings.default with requireBracket := true }

namespace Falling

lemma proper : falling.bounds.Proper := by
  intro j
  rw [Fin.eq_zero j]
  exact one_pos

lemma contains : falling.bounds.Contains falling.x := by
  intro j
  rw [Fin.eq_zero j]
  show (0 : ℝ) ≤ 0.5 ∧ (0.5 : ℝ) ≤ 1
  norm_num

lemma valid : strictCriteria.Valid := by
  have usual := default_valid
  exact ⟨usual.eta_pos, usual.moveLimit_pos, usual.lambdaUpper_pos, usual.bracketTolerance_pos⟩

lemma slope_ne (j : Fin 1) : falling.dgdx[j] ≠ 0 := by
  rw [Fin.eq_zero j]
  show (-1 : ℝ) ≠ 0
  norm_num

lemma window_beta : (falling.window strictCriteria).beta[(0 : Fin 1)] = 0.7 := by
  rw [entry_window_beta]
  show min ((0.5 : ℝ) + 0.2 * (1 - 0)) 1 = 0.7
  norm_num

/-- The largest multiplier takes the variable down, away from the corner. -/
lemma unbracketed (rounds : Nat) : falling.Unbracketed strictCriteria rounds := by
  have ratio : |-(-1 : ℝ) / (1e6 * -1)| ≤ 1 := by
    rw [abs_of_neg] <;> norm_num
  have lowered : (falling.candidate strictCriteria (falling.window strictCriteria)
      strictCriteria.lambdaUpper)[(0 : Fin 1)] ≤ 0.5 := candidateWith_le (j := 0) proper contains valid ratio
  rw [unbracketed_iff]
  unfold linearised
  rw [Fin.sum_univ_one]
  show (0 : ℝ) < 0.1 + -1 * (_ - 0.5)
  linarith

/-- The upper end of the window meets the constraint. -/
lemma corner_meets : falling.linearised (falling.corner (falling.window strictCriteria)) = -0.1 := by
  have falls : ¬ (0 : ℝ) < falling.dgdx[(0 : Fin 1)] := by
    show ¬ (0 : ℝ) < -1
    norm_num
  unfold linearised
  rw [Fin.sum_univ_one, entry_corner, if_neg falls, window_beta]
  show (0.1 : ℝ) + -1 * (0.7 - 0.5) = -0.1
  norm_num

end Falling

/-- A constraint that falls with its variable is given up although the window holds a design that meets it. -/
theorem unbracketed_though_met : falling.bounds.Proper ∧ falling.bounds.Contains falling.x ∧
    strictCriteria.Valid ∧ (∀ j : Fin 1, falling.dgdx[j] ≠ 0) ∧
    (∀ rounds, ∃ violation, (falling.step strictCriteria rounds).serial =
      .failed (.unbracketedMultiplier strictCriteria.lambdaUpper violation)) ∧
    ∃ x, (falling.window strictCriteria).Contains x ∧ falling.linearised x ≤ 0 := by
  have window := window_lt Falling.proper Falling.contains Falling.valid
  refine ⟨Falling.proper, Falling.contains, Falling.valid, Falling.slope_ne, fun rounds => ?_,
    falling.corner (falling.window strictCriteria), corner_contains fun j => (window j).le, ?_⟩
  · have verdict := Falling.unbracketed rounds
    unfold Unbracketed at verdict
    rwa [if_pos (show strictCriteria.requireBracket = true from rfl)] at verdict
  · rw [Falling.corner_meets]
    norm_num

/-- There the candidate of the largest multiplier loses more to the corner than the corner has to spare. -/
theorem excess_falling : 0.1 < falling.excess strictCriteria := by
  obtain ⟨-, verdict, -⟩ :=
    unbracketed_iff_corner Falling.proper Falling.contains Falling.valid Falling.slope_ne 0
  have lost := verdict.1 (Falling.unbracketed 0)
  rw [Falling.corner_meets] at lost
  linarith

end MovingAsymptotes.CriteriaProblem
