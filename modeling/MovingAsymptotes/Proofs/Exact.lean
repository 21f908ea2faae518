import Mathlib
import MovingAsymptotes.Scalar

/-!
# Exact arithmetic

The real numbers as scalars. Read over them, an algorithm of the library is free of rounding, and what
is proved about it is a statement about the method itself. Every real is a number of finite size; the
larger and the smaller of two are the maximum and the minimum; equality in the order is equality.

A quotient by zero is zero here, so a result that rests on one would be worth nothing. Where that
matters, the divisors are shown not to vanish.
-/

namespace MovingAsymptotes

/-- The real numbers, with the exact square root and power. -/
noncomputable instance : Scalar ℝ where
  decidableLT := Classical.decRel _
  decidableLE := Classical.decRel _
  abs a := |a|
  sqrt := Real.sqrt
  pow a b := a ^ b
  isFinite _ := true
  whole a := ⌊a⌋₊

variable {a b c : ℝ}

@[simp] lemma scalar_abs (a : ℝ) : Scalar.abs a = |a| := rfl

@[simp] lemma scalar_sqrt (a : ℝ) : Scalar.sqrt a = √a := rfl

@[simp] lemma isNumber (a : ℝ) : IsNumber a := le_refl a

@[simp] lemma agrees_iff : Agrees a b ↔ a = b :=
  ⟨fun h => le_antisymm h.1 h.2, fun h => ⟨h.le, h.ge⟩⟩

@[simp] lemma isPositive_iff : IsPositive a ↔ 0 < a :=
  ⟨fun h => h.1, fun h => ⟨h, rfl⟩⟩

/-- The larger of two reals is their maximum. -/
@[simp] lemma larger_eq_max (a b : ℝ) : larger a b = max a b := by
  unfold larger
  rw [if_pos (isNumber a)]
  split
  · next h => exact (max_eq_right h.le).symm
  · next h => exact (max_eq_left (not_lt.1 h)).symm

/-- The smaller of two reals is their minimum. -/
@[simp] lemma smaller_eq_min (a b : ℝ) : smaller a b = min a b := by
  unfold smaller
  rw [if_pos (isNumber a)]
  split
  · next h => exact (min_eq_right h.le).symm
  · next h => exact (min_eq_left (not_lt.1 h)).symm

@[simp] lemma positivePart_eq (a : ℝ) : positivePart a = max a 0 := larger_eq_max a 0

@[simp] lemma negativePart_eq (a : ℝ) : negativePart a = max (-a) 0 := larger_eq_max (-a) 0

@[simp] lemma clamp_eq (lo hi a : ℝ) : clamp lo hi a = max (min a hi) lo := by
  unfold clamp
  rw [larger_eq_max, smaller_eq_min]

/-- A real is the difference of its parts above and below zero. -/
lemma positivePart_nonneg (a : ℝ) : 0 ≤ positivePart a := by
  rw [positivePart_eq]
  exact le_max_right _ _

lemma positivePart_sub_negativePart (a : ℝ) : positivePart a - negativePart a = a := by
  rw [positivePart_eq, negativePart_eq]
  rcases le_total 0 a with h | h
  · rw [max_eq_left h, max_eq_right (by linarith)]
    ring
  · rw [max_eq_right h, max_eq_left (by linarith)]
    ring

/-- The largest of a list and a first value is bounded as all of them are. -/
lemma foldl_larger_le_iff (l : List ℝ) : l.foldl larger a ≤ c ↔ a ≤ c ∧ ∀ v ∈ l, v ≤ c := by
  induction l generalizing a with
  | nil => simp
  | cons v l ih =>
    rw [List.foldl_cons, ih, larger_eq_max, max_le_iff, List.forall_mem_cons, and_assoc]

end MovingAsymptotes
