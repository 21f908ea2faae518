import MovingAsymptotes.Proofs.Optimizer.Advance
import MovingAsymptotes.Proofs.Partial.Approximation

/-!
# States of numbers

The bounds, the history and the asymptotes of a state may be numbers although scalars need not be. The box in
which the next update looks for a design is then one of numbers, and a design from that box leads to another
state of numbers.

* `Optimizer.Defined`: the states of numbers.
* `Optimizer.Frame`: the numbers around which the next subproblem is built.
* `Optimizer.Defined.commit`: what a design within the move limits leads to.
-/

namespace MovingAsymptotes

open PartialReal

variable {n m : Nat}

/-- A design of numbers within move limits of numbers. -/
def MoveLimits.Confines (l : MoveLimits PartialReal n) (x : Vector PartialReal n) : Prop :=
  ∀ j : Fin n, l.alfa[j] ≤ x[j] ∧ x[j] ≤ l.beta[j]

lemma MoveLimits.Contains.confines {l : MoveLimits ℝ n} {x : Vector ℝ n} (h : l.Contains x) :
    l.lifted.Confines (lift x) := by
  intro j
  unfold MoveLimits.lifted
  rw [entry_lift, entry_lift, entry_lift]
  exact h j

namespace Optimizer

/-- Bounds, history, asymptotes and weights are numbers, and the design lies within proper bounds. -/
structure Defined (o : Optimizer PartialReal n) : Prop where
  proper : ∀ j : Fin n, o.bounds.lower[j] < o.bounds.upper[j]
  current : ∀ j : Fin n, o.bounds.lower[j] ≤ o.history.current[j] ∧ o.history.current[j] ≤ o.bounds.upper[j]
  earlier : ∀ j : Fin n, IsNumber o.history.previous[j] ∧ IsNumber o.history.beforePrevious[j]
  asymptotes : ∀ j : Fin n, IsNumber o.asymptotes.low[j] ∧ IsNumber o.asymptotes.upp[j]
  weights : o.weights.Defined
  settings : o.settings.validate = .ok ()

/-- The numbers around which the next subproblem is built. -/
structure Frame (o : Optimizer PartialReal n) where
  bounds : Bounds ℝ n
  x : Vector ℝ n
  settings : Settings ℝ
  asymptotes : Asymptotes ℝ n
  limits : MoveLimits ℝ n
  bounds_eq : o.bounds = bounds.lifted
  x_eq : o.history.current = lift x
  settings_eq : o.settings = settings.lifted
  asymptotes_eq : o.asymptotes.advance (o.iteration + 1) o.history o.bounds o.settings = asymptotes.lifted
  limits_eq : asymptotes.lifted.moveLimits o.history.current o.bounds o.settings = limits.lifted
  proper : bounds.Proper
  valid : settings.Valid
  encloses : asymptotes.Encloses x
  nested : limits.Nested asymptotes bounds x

variable {o : Optimizer PartialReal n}

lemma Defined.exists_lifted (ho : o.Defined) :
    ∃ (b : Bounds ℝ n) (h : History ℝ n) (asy : Asymptotes ℝ n) (s : Settings ℝ),
      (o.bounds = b.lifted ∧ o.history = h.lifted ∧ o.asymptotes = asy.lifted ∧ o.settings = s.lifted) ∧
        b.Proper ∧ b.Contains h.current ∧ s.Valid := by
  obtain ⟨s, hs, valid⟩ := Settings.exists_lifted ho.settings
  obtain ⟨lower, hlower⟩ := exists_lift fun j => (isNumber_of_le (ho.current j).1).1
  obtain ⟨upper, hupper⟩ := exists_lift fun j => (isNumber_of_le (ho.current j).2).2
  obtain ⟨x, hx⟩ := exists_lift fun j => (isNumber_of_le (ho.current j).1).2
  obtain ⟨previous, hprevious⟩ := exists_lift fun j => (ho.earlier j).1
  obtain ⟨before, hbefore⟩ := exists_lift fun j => (ho.earlier j).2
  obtain ⟨low, hlow⟩ := exists_lift fun j => (ho.asymptotes j).1
  obtain ⟨upp, hupp⟩ := exists_lift fun j => (ho.asymptotes j).2
  refine ⟨⟨lower, upper⟩, ⟨x, previous, before⟩, ⟨low, upp⟩, s, ⟨?_, ?_, ?_, hs⟩, fun j => ?_, fun j => ?_, valid⟩
  · unfold Bounds.lifted
    rw [← hlower, ← hupper]
  · unfold History.lifted
    rw [← hx, ← hprevious, ← hbefore]
  · unfold Asymptotes.lifted
    rw [← hlow, ← hupp]
  · have hj := ho.proper j
    rw [hlower, hupper, entry_lift, entry_lift] at hj
    exact hj
  · have hj := ho.current j
    rw [hlower, hupper, hx, entry_lift, entry_lift, entry_lift] at hj
    exact hj

/-- The frame of a state of which the numbers are known. -/
noncomputable def Frame.of {b : Bounds ℝ n} {h : History ℝ n} {asy : Asymptotes ℝ n} {s : Settings ℝ}
    (hb : o.bounds = b.lifted) (hh : o.history = h.lifted) (ha : o.asymptotes = asy.lifted)
    (hs : o.settings = s.lifted) (proper : b.Proper) (inside : b.Contains h.current) (valid : s.Valid) :
    o.Frame :=
  have encloses : (asy.advance (o.iteration + 1) h b s).Encloses h.current := asy.advance_encloses _ h proper valid
  { bounds := b
    x := h.current
    settings := s
    asymptotes := asy.advance (o.iteration + 1) h b s
    limits := (asy.advance (o.iteration + 1) h b s).moveLimits h.current b s
    bounds_eq := hb
    x_eq := congrArg History.current hh
    settings_eq := hs
    asymptotes_eq := by
      rw [ha, hh, hb, hs]
      exact Asymptotes.advance_lifted asy h b s _
    limits_eq := by
      rw [hh, hb, hs]
      exact Asymptotes.moveLimits_lifted _ h.current b s
    proper
    valid
    encloses
    nested := Asymptotes.moveLimits_nested encloses proper inside valid }

lemma Defined.exists_frame (ho : o.Defined) : Nonempty o.Frame := by
  obtain ⟨b, h, asy, s, ⟨hb, hh, ha, hs⟩, proper, inside, valid⟩ := ho.exists_lifted
  exact ⟨.of hb hh ha hs proper inside valid⟩

lemma Defined.counted (ho : o.Defined) (k : Nat) : (o.setConstraintCount k).Defined := by
  have weights : (o.setConstraintCount k).weights.Defined := by
    unfold setConstraintCount
    split
    · exact WeightDraft.default_defined k
    · exact ho.weights
  obtain ⟨m, w, hk⟩ := o.setConstraintCount_shape k
  rw [hk] at weights ⊢
  exact { ho with weights }

/-- The state is one of numbers, and its design lies within its move limits. -/
def Confined (o : Optimizer PartialReal n) : Prop := o.Defined ∧ o.limits.Confines o.history.current

/-- A design within the move limits of the update leads from a state of numbers to another. -/
lemma Defined.commit (ho : o.Defined) (f : o.Frame) {found : RecordedSolution PartialReal n}
    (hx : f.limits.lifted.Confines found.solution.point.x) (change : PartialReal) :
    (o.commit (.subproblem f.asymptotes.lifted f.limits.lifted found) change).Confined := by
  have within : ∀ j : Fin n, o.bounds.lower[j] ≤ f.limits.lifted.alfa[j] ∧
      f.limits.lifted.beta[j] ≤ o.bounds.upper[j] := by
    intro j
    rw [f.bounds_eq]
    unfold Bounds.lifted MoveLimits.lifted
    rw [entry_lift, entry_lift, entry_lift, entry_lift]
    exact ⟨f.nested.lower_le_alfa j, f.nested.beta_le_upper j⟩
  have asymptotes : ∀ j : Fin n, IsNumber f.asymptotes.lifted.low[j] ∧ IsNumber f.asymptotes.lifted.upp[j] := by
    intro j
    unfold Asymptotes.lifted
    rw [entry_lift, entry_lift]
    exact ⟨isNumber_real _, isNumber_real _⟩
  refine ⟨?_, hx⟩
  exact
    { proper := ho.proper
      current := fun j => ⟨le_of_le_of_le (within j).1 (hx j).1, le_of_le_of_le (hx j).2 (within j).2⟩
      earlier := fun j => ⟨(isNumber_of_le (ho.current j).1).2, (ho.earlier j).1⟩
      asymptotes
      weights := ho.weights
      settings := ho.settings }

end Optimizer

end MovingAsymptotes
