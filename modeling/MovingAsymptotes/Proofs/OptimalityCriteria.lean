import Mathlib
import MovingAsymptotes.OptimalityCriteria
import MovingAsymptotes.Proofs.Linear.Vector
import MovingAsymptotes.Proofs.Reduction.Serial
import MovingAsymptotes.Proofs.Settings

/-!
# Optimality criteria over the reals

Every bisection halves the bracket of the multiplier, so the search ends once enough rounds are allowed.
It tells candidates apart by the linearised constraint only, and the power that makes up a candidate may
be any function.

* `CriteriaProblem.linearised`: the linearised constraint.
* `realsWith`, `CriteriaProblem.stepWith`: the update by another power.
* `CriteriaProblem.bisectWith_cases`: what a round of the search does.
* `CriteriaProblem.step_ends`: the update ends with a step or is refused.
-/

namespace MovingAsymptotes

/-- The real numbers with another power. -/
@[reducible]
noncomputable def realsWith (power : ℝ → ℝ → ℝ) : Scalar ℝ :=
  { (inferInstance : Scalar ℝ) with pow := power }

namespace CriteriaProblem

variable {n : Nat} (p : CriteriaProblem ℝ n) (power : ℝ → ℝ → ℝ) (s : CriteriaSettings ℝ)

/-- The value of the linearised constraint at a design. -/
noncomputable def linearised (x : Vector ℝ n) : ℝ := p.g + ∑ j : Fin n, p.dgdx[j] * (x[j] - p.x[j])

lemma violation_serial (x : Vector ℝ n) : (p.violation x).serial = .done (p.linearised x) := by
  have value : p.g + dot p.dgdx (Vector.zipWith (· - ·) x p.x) = p.linearised x := by
    rw [dot_eq_sum]
    unfold linearised
    exact congrArg _ (Finset.sum_congr rfl fun j _ => by rw [entry_zipWith])
  exact congrArg Outcome.done value

/-- The candidate for a multiplier, by another power. -/
noncomputable def candidateWith (limits : MoveLimits ℝ n) (lambda : ℝ) : Vector ℝ n :=
  @candidate ℝ (realsWith power) n p s limits lambda

/-- The power has no part in the constraint. -/
lemma violationWith_serial (x : Vector ℝ n) :
    (@violation ℝ (realsWith power) n p x).serial = .done (p.linearised x) := by
  rw [← violation_serial]
  unfold violation dot
  -- The inner product adds up by a recursion of its own, which is the same once it is opened.
  delta sumByEights
  rfl

/-- The search for a multiplier, by another power. -/
noncomputable def bisectWith (limits : MoveLimits ℝ n) (rounds : Nat) (b : Bracket ℝ n) :
    Program ℝ (Cause ℝ) (Bracket ℝ n) :=
  @bisect ℝ (realsWith power) n p s limits rounds b

/-- The update by another power. -/
noncomputable def stepWith (rounds : Nat) : Program ℝ (Cause ℝ) (CriteriaStep ℝ n) :=
  @step ℝ (realsWith power) n p s rounds

/-- The bracket that the search starts from. -/
noncomputable def startWith : Bracket ℝ n where
  lo := 0
  hi := s.lambdaUpper
  multiplier := s.lambdaUpper
  x := p.candidateWith power s (p.window s) s.lambdaUpper
  bisections := 0

section Search

variable (limits : MoveLimits ℝ n)

/-- One bisection: the middle becomes the lower end if its candidate violates the constraint, and the upper
end if it does not. -/
inductive Halves (b : Bracket ℝ n) : Bracket ℝ n → Prop where
  | violated (middle : ℝ) : middle = (b.lo + b.hi) / 2 →
      0 < p.linearised (p.candidateWith power s limits middle) →
      Halves b ⟨middle, b.hi, middle, p.candidateWith power s limits middle, b.bisections + 1⟩
  | met (middle : ℝ) : middle = (b.lo + b.hi) / 2 →
      p.linearised (p.candidateWith power s limits middle) ≤ 0 →
      Halves b ⟨b.lo, middle, middle, p.candidateWith power s limits middle, b.bisections + 1⟩

variable {p power s limits} {b next : Bracket ℝ n}

lemma Halves.width (h : p.Halves power s limits b next) : next.hi - next.lo = (b.hi - b.lo) / 2 := by
  cases h with
  | violated middle hm _ =>
    rw [hm]
    ring
  | met middle hm _ =>
    rw [hm]
    ring

variable (p power s limits)

/-- A round leaves a narrow bracket as it is and halves a wide one. -/
lemma bisectWith_cases (b : Bracket ℝ n) :
    (b.hi - b.lo ≤ s.bracketTolerance ∧ ∀ rounds, (p.bisectWith power s limits rounds b).serial = .done b) ∨
      (s.bracketTolerance < b.hi - b.lo ∧ (p.bisectWith power s limits 0 b).serial = .unfinished ∧
        ∃ next, p.Halves power s limits b next ∧ ∀ rounds,
          (p.bisectWith power s limits (rounds + 1) b).serial = (p.bisectWith power s limits rounds next).serial) := by
  rcases le_or_gt (b.hi - b.lo) s.bracketTolerance with narrow | wide
  · refine .inl ⟨narrow, fun rounds => ?_⟩
    cases rounds with
    | zero => exact congrArg Program.serial (if_neg narrow.not_gt)
    | succ rounds => exact congrArg Program.serial (if_neg narrow.not_gt)
  · refine .inr ⟨wide, congrArg Program.serial (if_pos wide), ?_⟩
    let middle : ℝ := 0.5 * (b.lo + b.hi)
    let x := p.candidateWith power s limits middle
    have half : middle = (b.lo + b.hi) / 2 := by
      show 0.5 * (b.lo + b.hi) = (b.lo + b.hi) / 2
      ring
    have round (rounds : Nat) : (p.bisectWith power s limits (rounds + 1) b).serial =
        (p.bisectWith power s limits rounds
          ⟨if 0 < p.linearised x then middle else b.lo, if 0 < p.linearised x then b.hi else middle, middle, x,
            b.bisections + 1⟩).serial := by
      refine (congrArg Program.serial (if_pos wide)).trans ?_
      rw [Program.serial_bind, violationWith_serial]
      rfl
    rcases lt_or_ge 0 (p.linearised x) with hv | hv
    · refine ⟨_, .violated middle half hv, fun rounds => ?_⟩
      rw [round, if_pos hv, if_pos hv]
    · refine ⟨_, .met middle half hv, fun rounds => ?_⟩
      rw [round, if_neg hv.not_gt, if_neg hv.not_gt]

/-- Enough rounds to halve the bracket down to the tolerance. -/
lemma bisectWith_ends (rounds : Nat) (b : Bracket ℝ n)
    (h : (b.hi - b.lo) * 0.5 ^ rounds ≤ s.bracketTolerance) :
    ∃ found, (p.bisectWith power s limits rounds b).serial = .done found := by
  induction rounds generalizing b with
  | zero =>
    rw [pow_zero, mul_one] at h
    rcases p.bisectWith_cases power s limits b with ⟨-, stays⟩ | ⟨wide, -⟩
    · exact ⟨b, stays 0⟩
    · exact absurd h wide.not_ge
  | succ rounds ih =>
    rcases p.bisectWith_cases power s limits b with ⟨-, stays⟩ | ⟨-, -, next, halves, goes⟩
    · exact ⟨b, stays _⟩
    · rw [goes]
      refine ih next ?_
      rw [halves.width]
      rw [pow_succ'] at h
      linarith

/-- What every bisection of a bracket that is too wide keeps holds of the bracket that a search ends with. -/
lemma bisectWith_keeps {I : Bracket ℝ n → Prop}
    (keeps : ∀ b next, I b → s.bracketTolerance < b.hi - b.lo → p.Halves power s limits b next → I next)
    {rounds : Nat} {b found : Bracket ℝ n} (hb : I b)
    (hf : (p.bisectWith power s limits rounds b).serial = .done found) :
    I found ∧ found.hi - found.lo ≤ s.bracketTolerance := by
  induction rounds generalizing b with
  | zero =>
    rcases p.bisectWith_cases power s limits b with ⟨narrow, stays⟩ | ⟨-, out, -⟩
    · rw [stays] at hf
      cases hf
      exact ⟨hb, narrow⟩
    · rw [out] at hf
      cases hf
  | succ rounds ih =>
    rcases p.bisectWith_cases power s limits b with ⟨narrow, stays⟩ | ⟨wide, -, next, halved, goes⟩
    · rw [stays] at hf
      cases hf
      exact ⟨hb, narrow⟩
    · rw [goes] at hf
      exact ih (keeps b next hb wide halved) hf

/-- More rounds than a search needs change nothing. -/
lemma bisectWith_steady {found : Bracket ℝ n} {rounds more : Nat} (b : Bracket ℝ n)
    (h : (p.bisectWith power s limits rounds b).serial = .done found) (hle : rounds ≤ more) :
    (p.bisectWith power s limits more b).serial = .done found := by
  induction rounds generalizing b more with
  | zero =>
    rcases p.bisectWith_cases power s limits b with ⟨-, stays⟩ | ⟨-, out, -⟩
    · rw [stays] at h ⊢
      exact h
    · rw [out] at h
      cases h
  | succ rounds ih =>
    obtain ⟨more, rfl⟩ : ∃ k, more = k + 1 := ⟨more - 1, by omega⟩
    rcases p.bisectWith_cases power s limits b with ⟨-, stays⟩ | ⟨-, -, next, halves, goes⟩
    · rw [stays] at h ⊢
      exact h
    · rw [goes] at h ⊢
      exact ih next h (by omega)

/-- The search itself never fails. -/
lemma bisectWith_ne_failed (rounds : Nat) (b : Bracket ℝ n) (e : Cause ℝ) :
    (p.bisectWith power s limits rounds b).serial ≠ .failed e := by
  induction rounds generalizing b with
  | zero =>
    rcases p.bisectWith_cases power s limits b with ⟨-, stays⟩ | ⟨-, out, -⟩
    · rw [stays]
      nofun
    · rw [out]
      nofun
  | succ rounds ih =>
    rcases p.bisectWith_cases power s limits b with ⟨-, stays⟩ | ⟨-, -, next, -, goes⟩
    · rw [stays]
      nofun
    · rw [goes]
      exact ih next

end Search

/-- A constraint that the candidate at the upper end violates is refused if the settings say so. -/
lemma stepWith_refused (hs : s.requireBracket = true) (rounds : Nat)
    (h : 0 < p.linearised (p.startWith power s).x) :
    (p.stepWith power s rounds).serial =
      .failed (.unbracketedMultiplier s.lambdaUpper (p.linearised (p.startWith power s).x)) := by
  refine (Program.serial_bind _ _).trans ?_
  rw [violationWith_serial]
  exact (congrArg Program.serial (if_pos h)).trans (congrArg Program.serial (if_pos hs))

/-- Otherwise that candidate is the new design. -/
lemma stepWith_unbracketed (hs : s.requireBracket = false) (rounds : Nat)
    (h : 0 < p.linearised (p.startWith power s).x) :
    (p.stepWith power s rounds).serial =
      .done ⟨(p.startWith power s).x, p.window s, s.lambdaUpper, 0, false⟩ := by
  refine (Program.serial_bind _ _).trans ?_
  rw [violationWith_serial]
  refine (congrArg Program.serial (if_pos h)).trans (congrArg Program.serial (if_neg ?_))
  rw [hs]
  exact Bool.false_ne_true

/-- A candidate at the upper end that meets the constraint starts a search. -/
lemma stepWith_bracketed (rounds : Nat) (h : p.linearised (p.startWith power s).x ≤ 0) :
    (p.stepWith power s rounds).serial =
      (p.bisectWith power s (p.window s) rounds (p.startWith power s)).serial.andThen fun b =>
        .done ⟨b.x, p.window s, b.multiplier, b.bisections, true⟩ := by
  refine (Program.serial_bind _ _).trans ?_
  rw [violationWith_serial]
  exact (congrArg Program.serial (if_neg h.not_gt)).trans (Program.serial_bind _ _)

/-- If that search ends, it has found a bracket. -/
lemma stepWith_met (rounds : Nat) (h : p.linearised (p.startWith power s).x ≤ 0) :
    (p.stepWith power s rounds).serial = .unfinished ∨
      ∃ b, (p.bisectWith power s (p.window s) rounds (p.startWith power s)).serial = .done b ∧
        (p.stepWith power s rounds).serial =
          .done ⟨b.x, p.window s, b.multiplier, b.bisections, true⟩ := by
  rw [p.stepWith_bracketed power s rounds h]
  cases hf : (p.bisectWith power s (p.window s) rounds (p.startWith power s)).serial with
  | done b => exact .inr ⟨b, rfl, rfl⟩
  | failed e => exact absurd hf (p.bisectWith_ne_failed power s (p.window s) rounds _ e)
  | unfinished => exact .inl rfl

/-- A step that found a bracket comes from a search. -/
lemma stepWith_search {rounds : Nat} {step : CriteriaStep ℝ n}
    (hstep : (p.stepWith power s rounds).serial = .done step) (bracketed : step.bracketed = true) :
    p.linearised (p.startWith power s).x ≤ 0 ∧
      ∃ b, (p.bisectWith power s (p.window s) rounds (p.startWith power s)).serial = .done b ∧
        step = ⟨b.x, p.window s, b.multiplier, b.bisections, true⟩ := by
  rcases lt_or_ge 0 (p.linearised (p.startWith power s).x) with hv | hv
  · cases required : s.requireBracket with
    | true =>
      rw [p.stepWith_refused power s required rounds hv] at hstep
      cases hstep
    | false =>
      rw [p.stepWith_unbracketed power s required rounds hv] at hstep
      cases hstep
      cases bracketed
  · rcases p.stepWith_met power s rounds hv with out | ⟨b, hf, found⟩
    · rw [out] at hstep
      cases hstep
    · rw [found] at hstep
      cases hstep
      exact ⟨hv, b, hf, rfl⟩

/-- With enough rounds an update ends with a step or is refused, and more rounds change nothing. -/
lemma stepWith_ends {rounds : Nat} (h : s.lambdaUpper * 0.5 ^ rounds ≤ s.bracketTolerance) :
    (∃ step, ∀ more, rounds ≤ more → (p.stepWith power s more).serial = .done step) ∨
      ∃ violation, ∀ more, rounds ≤ more →
        (p.stepWith power s more).serial = .failed (.unbracketedMultiplier s.lambdaUpper violation) := by
  rcases lt_or_ge 0 (p.linearised (p.startWith power s).x) with hv | hv
  · cases hs : s.requireBracket with
    | true => exact .inr ⟨_, fun more _ => p.stepWith_refused power s hs more hv⟩
    | false => exact .inl ⟨_, fun more _ => p.stepWith_unbracketed power s hs more hv⟩
  · have wide : ((p.startWith power s).hi - (p.startWith power s).lo) * 0.5 ^ rounds ≤ s.bracketTolerance := by
      show (s.lambdaUpper - 0) * 0.5 ^ rounds ≤ s.bracketTolerance
      rwa [sub_zero]
    obtain ⟨found, hf⟩ := p.bisectWith_ends power s (p.window s) rounds (p.startWith power s) wide
    refine .inl ⟨⟨found.x, p.window s, found.multiplier, found.bisections, true⟩, fun more hle => ?_⟩
    rw [p.stepWith_bracketed power s more hv, p.bisectWith_steady power s (p.window s) _ hf hle]
    rfl

/-- The update ends with a step, or it fails because the upper end of the bracket violates the constraint. -/
theorem step_ends {rounds : Nat} (h : s.lambdaUpper * 0.5 ^ rounds ≤ s.bracketTolerance) :
    (∃ step, (p.step s rounds).serial = .done step) ∨
      ∃ violation,
        (p.step s rounds).serial = .failed (.unbracketedMultiplier s.lambdaUpper violation) := by
  rcases p.stepWith_ends (· ^ ·) s h with ⟨step, ends⟩ | ⟨violation, ends⟩
  · exact .inl ⟨step, ends rounds (le_refl rounds)⟩
  · exact .inr ⟨violation, ends rounds (le_refl rounds)⟩

lemma step_refused (hs : s.requireBracket = true) (rounds : Nat)
    (h : 0 < p.linearised (p.candidate s (p.window s) s.lambdaUpper)) :
    (p.step s rounds).serial = .failed (.unbracketedMultiplier s.lambdaUpper
      (p.linearised (p.candidate s (p.window s) s.lambdaUpper))) :=
  p.stepWith_refused (· ^ ·) s hs rounds h

end CriteriaProblem

end MovingAsymptotes
