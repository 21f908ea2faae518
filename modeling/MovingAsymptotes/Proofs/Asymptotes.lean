import Mathlib
import MovingAsymptotes.Asymptotes
import MovingAsymptotes.Proofs.Linear.Vector
import MovingAsymptotes.Proofs.Settings

/-!
# Asymptotes and move limits around a design

Whatever the history, the asymptotes of an iteration lie strictly on either side of the design, and the
move limits lie between the asymptotes with the design among them. A move limit meets the design only
where the bound does.

* `Asymptotes.advance_encloses`: the asymptotes enclose the design.
* `Asymptotes.moveLimits_nested`: the order of asymptotes, move limits, bounds and design.
-/

namespace MovingAsymptotes

variable {n : Nat}

/-- Every variable has a range. -/
def Bounds.Proper (b : Bounds ℝ n) : Prop := ∀ j : Fin n, b.lower[j] < b.upper[j]

/-- A design within the bounds. -/
def Bounds.Contains (b : Bounds ℝ n) (x : Vector ℝ n) : Prop :=
  ∀ j : Fin n, b.lower[j] ≤ x[j] ∧ x[j] ≤ b.upper[j]

lemma Bounds.Proper.range_pos {b : Bounds ℝ n} (hb : b.Proper) (j : Fin n) : 0 < b.range j :=
  sub_pos.2 (hb j)

namespace Asymptotes

/-- Asymptotes strictly on either side of a design. -/
def Encloses (asy : Asymptotes ℝ n) (x : Vector ℝ n) : Prop :=
  ∀ j : Fin n, asy.low[j] < x[j] ∧ x[j] < asy.upp[j]

lemma initial_encloses {x : Vector ℝ n} {b : Bounds ℝ n} {s : Settings ℝ} (hb : b.Proper)
    (hs : s.Valid) : (initial x b s).Encloses x := by
  intro j
  have h : 0 < s.asyinit * b.range j := mul_pos hs.asyinit_pos (hb.range_pos j)
  unfold initial
  simp only [entry_ofFn]
  constructor <;> linarith

/-- The clamp to a hundredth of the range alone keeps the asymptotes away from the design, so neither
the history nor the asymptotes before matter. -/
lemma adapted_encloses (asy : Asymptotes ℝ n) (h : History ℝ n) {b : Bounds ℝ n} (s : Settings ℝ)
    (hb : b.Proper) : (asy.adapted h b s).Encloses h.current := by
  intro j
  have hr := hb.range_pos j
  unfold adapted
  simp only [entry_ofFn, larger_eq_max, smaller_eq_min]
  constructor
  · refine (min_le_right _ _).trans_lt ?_
    norm_num
    exact hr
  · refine lt_of_lt_of_le ?_ (le_max_right _ _)
    norm_num
    exact hr

/-- The asymptotes of every iteration lie strictly on either side of the design. -/
theorem advance_encloses (asy : Asymptotes ℝ n) (iteration : Nat) (h : History ℝ n) {b : Bounds ℝ n}
    {s : Settings ℝ} (hb : b.Proper) (hs : s.Valid) :
    (asy.advance iteration h b s).Encloses h.current := by
  unfold advance
  split
  · exact initial_encloses hb hs
  · exact asy.adapted_encloses h s hb

end Asymptotes

/-- A design within the move limits. -/
def MoveLimits.Contains (l : MoveLimits ℝ n) (x : Vector ℝ n) : Prop :=
  ∀ j : Fin n, l.alfa[j] ≤ x[j] ∧ x[j] ≤ l.beta[j]

/-- Move limits around the design `x`, between asymptotes and within bounds. -/
structure MoveLimits.Nested (l : MoveLimits ℝ n) (asy : Asymptotes ℝ n) (b : Bounds ℝ n)
    (x : Vector ℝ n) : Prop where
  low_lt_alfa : ∀ j : Fin n, asy.low[j] < l.alfa[j]
  alfa_lt_beta : ∀ j : Fin n, l.alfa[j] < l.beta[j]
  beta_lt_upp : ∀ j : Fin n, l.beta[j] < asy.upp[j]
  lower_le_alfa : ∀ j : Fin n, b.lower[j] ≤ l.alfa[j]
  beta_le_upper : ∀ j : Fin n, l.beta[j] ≤ b.upper[j]
  alfa_le : ∀ j : Fin n, l.alfa[j] ≤ x[j]
  le_beta : ∀ j : Fin n, x[j] ≤ l.beta[j]
  /-- The lower limit meets the design exactly where the lower bound does. -/
  alfa_eq_iff : ∀ j : Fin n, l.alfa[j] = x[j] ↔ b.lower[j] = x[j]
  /-- The upper limit meets the design exactly where the upper bound does. -/
  beta_eq_iff : ∀ j : Fin n, l.beta[j] = x[j] ↔ b.upper[j] = x[j]

namespace Asymptotes

variable {asy : Asymptotes ℝ n} {x : Vector ℝ n} {b : Bounds ℝ n} {s : Settings ℝ}

lemma entry_alfa (j : Fin n) : (asy.moveLimits x b s).alfa[j] =
    max (max (asy.low[j] + s.albefa * (x[j] - asy.low[j])) (x[j] - s.mmamove * b.range j)) b.lower[j] := by
  unfold moveLimits
  simp only [entry_ofFn, larger_eq_max]

lemma entry_beta (j : Fin n) : (asy.moveLimits x b s).beta[j] =
    min (min (asy.upp[j] - s.albefa * (asy.upp[j] - x[j])) (x[j] + s.mmamove * b.range j)) b.upper[j] := by
  unfold moveLimits
  simp only [entry_ofFn, smaller_eq_min]

/-- A maximum reaches `x` through its last competitor only, if the others stay below. -/
lemma max_eq_iff_of_lt {c d l y : ℝ} (hc : c < y) (hd : d < y) (hl : l ≤ y) :
    max (max c d) l = y ↔ l = y := by
  constructor
  · intro h
    refine hl.eq_of_not_lt fun hlt => ?_
    exact (max_lt (max_lt hc hd) hlt).ne h
  · rintro rfl
    exact max_eq_right (max_lt hc hd).le

/-- A minimum reaches `x` through its last competitor only, if the others stay above. -/
lemma min_eq_iff_of_lt {c d u y : ℝ} (hc : y < c) (hd : y < d) (hu : y ≤ u) :
    min (min c d) u = y ↔ u = y := by
  constructor
  · intro h
    refine (hu.eq_of_not_lt fun hlt => ?_).symm
    exact (lt_min (lt_min hc hd) hlt).ne' h
  · rintro rfl
    exact min_eq_right (lt_min hc hd).le

/-- The share of the distance that a limit keeps clear of its asymptote lies strictly in between. -/
lemma clear_between {p y t : ℝ} (h : p < y) (h₀ : 0 < t) (h₁ : t < 1) :
    p < p + t * (y - p) ∧ p + t * (y - p) < y := by
  have hd := sub_pos.2 h
  have hl := mul_pos h₀ hd
  have hu := mul_lt_of_lt_one_left hd h₁
  constructor <;> linarith

/-- The order of asymptotes, move limits, bounds and design. -/
theorem moveLimits_nested (ha : asy.Encloses x) (hb : b.Proper) (hx : b.Contains x) (hs : s.Valid) :
    (asy.moveLimits x b s).Nested asy b x := by
  have move : ∀ j : Fin n, 0 < s.mmamove * b.range j :=
    fun j => mul_pos hs.mmamove_pos (hb.range_pos j)
  have clearLow := fun j : Fin n => clear_between (ha j).1 hs.albefa_pos hs.albefa_lt_one
  have clearUpp : ∀ j : Fin n, x[j] < asy.upp[j] - s.albefa * (asy.upp[j] - x[j]) ∧
      asy.upp[j] - s.albefa * (asy.upp[j] - x[j]) < asy.upp[j] := by
    intro j
    obtain ⟨h₁, h₂⟩ := clear_between (neg_lt_neg (ha j).2) hs.albefa_pos hs.albefa_lt_one
    constructor <;> linarith
  have low_lt_alfa : ∀ j : Fin n, asy.low[j] < (asy.moveLimits x b s).alfa[j] := by
    intro j
    rw [entry_alfa]
    exact (clearLow j).1.trans_le ((le_max_left _ _).trans (le_max_left _ _))
  have beta_lt_upp : ∀ j : Fin n, (asy.moveLimits x b s).beta[j] < asy.upp[j] := by
    intro j
    rw [entry_beta]
    exact ((min_le_left _ _).trans (min_le_left _ _)).trans_lt (clearUpp j).2
  have alfa_le : ∀ j : Fin n, (asy.moveLimits x b s).alfa[j] ≤ x[j] := by
    intro j
    rw [entry_alfa]
    exact max_le (max_le (clearLow j).2.le (by linarith [move j])) (hx j).1
  have le_beta : ∀ j : Fin n, x[j] ≤ (asy.moveLimits x b s).beta[j] := by
    intro j
    rw [entry_beta]
    exact le_min (le_min (clearUpp j).1.le (by linarith [move j])) (hx j).2
  have alfa_eq_iff : ∀ j : Fin n, (asy.moveLimits x b s).alfa[j] = x[j] ↔ b.lower[j] = x[j] := by
    intro j
    rw [entry_alfa]
    exact max_eq_iff_of_lt (clearLow j).2 (by linarith [move j]) (hx j).1
  have beta_eq_iff : ∀ j : Fin n, (asy.moveLimits x b s).beta[j] = x[j] ↔ b.upper[j] = x[j] := by
    intro j
    rw [entry_beta]
    exact min_eq_iff_of_lt (clearUpp j).1 (by linarith [move j]) (hx j).2
  -- The limits meet only where both bounds do, and a proper box has no such place
  have alfa_lt_beta : ∀ j : Fin n,
      (asy.moveLimits x b s).alfa[j] < (asy.moveLimits x b s).beta[j] := by
    intro j
    refine lt_of_le_of_ne ((alfa_le j).trans (le_beta j)) fun h => ?_
    have hl := (alfa_eq_iff j).1 (le_antisymm (alfa_le j) (h ▸ le_beta j))
    have hu := (beta_eq_iff j).1 (le_antisymm (h ▸ alfa_le j) (le_beta j))
    exact (hb j).ne (hl.trans hu.symm)
  have lower_le_alfa : ∀ j : Fin n, b.lower[j] ≤ (asy.moveLimits x b s).alfa[j] := by
    intro j
    rw [entry_alfa]
    exact le_max_right _ _
  have beta_le_upper : ∀ j : Fin n, (asy.moveLimits x b s).beta[j] ≤ b.upper[j] := by
    intro j
    rw [entry_beta]
    exact min_le_right _ _
  exact { low_lt_alfa, alfa_lt_beta, beta_lt_upp, lower_le_alfa, beta_le_upper, alfa_le, le_beta,
          alfa_eq_iff, beta_eq_iff }

end Asymptotes

end MovingAsymptotes
