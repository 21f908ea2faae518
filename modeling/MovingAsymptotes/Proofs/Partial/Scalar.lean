import MovingAsymptotes.Proofs.Exact

/-!
# Reals with an undefined value

The real numbers and one value that is not a number. An operation on it gives it back, every comparison
with it fails, and so the larger and the smaller of it and a number are the number. A quotient by zero and
the square root of a negative number are undefined, too.
-/

namespace MovingAsymptotes

/-- The reals and an undefined value. -/
inductive PartialReal where
  | real (a : ℝ)
  | undefined

namespace PartialReal

/-- An operation on reals, undefined where an operand is. -/
def both (f : ℝ → ℝ → ℝ) : PartialReal → PartialReal → PartialReal
  | real a, real b => real (f a b)
  | _, _ => undefined

/-- A comparison of reals, false where a side is undefined. -/
def Compares (r : ℝ → ℝ → Prop) : PartialReal → PartialReal → Prop
  | real a, real b => r a b
  | _, _ => False

noncomputable instance : Scalar PartialReal where
  zero := real 0
  one := real 1
  natCast n := real n
  ofScientific mantissa sign exponent := real (OfScientific.ofScientific mantissa sign exponent)
  add := both (· + ·)
  sub := both (· - ·)
  mul := both (· * ·)
  div
    | real a, real b => if b = 0 then undefined else real (a / b)
    | _, _ => undefined
  neg
    | real a => real (-a)
    | undefined => undefined
  lt := Compares (· < ·)
  le := Compares (· ≤ ·)
  decidableLT := Classical.decRel _
  decidableLE := Classical.decRel _
  abs
    | real a => real |a|
    | undefined => undefined
  sqrt
    | real a => if 0 ≤ a then real √a else undefined
    | undefined => undefined
  pow
    | real a, real b => if 0 < a ∨ a = 0 ∧ 0 ≤ b then real (a ^ b) else undefined
    | _, _ => undefined
  isFinite
    | real _ => true
    | undefined => false
  whole
    | real a => ⌊a⌋₊
    | undefined => 0

section Numbers

variable (a b : ℝ)

@[simp] lemma zero_eq : (0 : PartialReal) = real 0 := rfl

@[simp] lemma one_eq : (1 : PartialReal) = real 1 := rfl

@[simp] lemma natCast_eq (n : Nat) : (n : PartialReal) = real n := rfl

@[simp] lemma ofScientific_eq (mantissa : Nat) (sign : Bool) (exponent : Nat) :
    (OfScientific.ofScientific mantissa sign exponent : PartialReal) =
      real (OfScientific.ofScientific mantissa sign exponent) := rfl

@[simp] lemma real_add : real a + real b = real (a + b) := rfl

@[simp] lemma real_sub : real a - real b = real (a - b) := rfl

@[simp] lemma real_mul : real a * real b = real (a * b) := rfl

@[simp] lemma real_neg : -real a = real (-a) := rfl

@[simp] lemma real_abs : Scalar.abs (real a) = real |a| := rfl

@[simp] lemma real_lt_iff : real a < real b ↔ a < b := Iff.rfl

@[simp] lemma real_le_iff : real a ≤ real b ↔ a ≤ b := Iff.rfl

variable {a b}

lemma real_div (hb : b ≠ 0) : real a / real b = real (a / b) := if_neg hb

variable (a b)

@[simp] lemma isNumber_real : IsNumber (real a) := le_refl a

@[simp] lemma larger_real : larger (real a) (real b) = real (larger a b) := by
  unfold larger
  rw [if_pos (isNumber_real a), if_pos (isNumber a)]
  split
  · next h => rw [if_pos ((real_lt_iff a b).1 h)]
  · next h => rw [if_neg fun h' => h ((real_lt_iff a b).2 h')]

@[simp] lemma smaller_real : smaller (real a) (real b) = real (smaller a b) := by
  unfold smaller
  rw [if_pos (isNumber_real a), if_pos (isNumber a)]
  split
  · next h => rw [if_pos ((real_lt_iff b a).1 h)]
  · next h => rw [if_neg fun h' => h ((real_lt_iff b a).2 h')]

lemma ite_real (c : Prop) [Decidable c] : (if c then real a else real b) = real (if c then a else b) :=
  (apply_ite real c a b).symm

@[simp] lemma agrees_real_iff : Agrees (real a) (real b) ↔ Agrees a b := Iff.rfl

end Numbers

section Undefined

variable (a b : PartialReal)

@[simp] lemma undefined_add : undefined + a = undefined := rfl

@[simp] lemma add_undefined : a + undefined = undefined := by cases a <;> rfl

@[simp] lemma undefined_sub : undefined - a = undefined := rfl

@[simp] lemma sub_undefined : a - undefined = undefined := by cases a <;> rfl

@[simp] lemma undefined_mul : undefined * a = undefined := rfl

@[simp] lemma mul_undefined : a * undefined = undefined := by cases a <;> rfl

@[simp] lemma undefined_div : undefined / a = undefined := rfl

@[simp] lemma div_undefined : a / undefined = undefined := by cases a <;> rfl

@[simp] lemma neg_undefined : -undefined = undefined := rfl

@[simp] lemma abs_undefined : Scalar.abs undefined = undefined := rfl

@[simp] lemma not_undefined_lt : ¬ undefined < a := id

@[simp] lemma not_lt_undefined : ¬ a < undefined := by cases a <;> exact id

@[simp] lemma not_undefined_le : ¬ undefined ≤ a := id

@[simp] lemma not_le_undefined : ¬ a ≤ undefined := by cases a <;> exact id

@[simp] lemma not_isNumber_undefined : ¬ IsNumber undefined := id

@[simp] lemma undefined_larger : larger undefined a = a := if_neg (not_isNumber_undefined)

@[simp] lemma larger_undefined : larger a undefined = a := by
  cases a with
  | real a => exact (if_pos (isNumber_real a)).trans (if_neg (not_lt_undefined _))
  | undefined => exact undefined_larger _

@[simp] lemma undefined_smaller : smaller undefined a = a := if_neg (not_isNumber_undefined)

variable {a b}

lemma isNumber_iff : IsNumber a ↔ ∃ r, a = real r := by
  cases a with
  | real r => exact iff_of_true (isNumber_real r) ⟨r, rfl⟩
  | undefined => exact iff_of_false not_isNumber_undefined nofun

/-- Whatever compares is a number. -/
lemma isNumber_of_le (h : a ≤ b) : IsNumber a ∧ IsNumber b := by
  cases a with
  | real r =>
    cases b with
    | real q => exact ⟨isNumber_real r, isNumber_real q⟩
    | undefined => exact absurd h (not_le_undefined _)
  | undefined => exact absurd h (not_undefined_le b)

lemma le_of_le_of_le {c : PartialReal} (hab : a ≤ b) (hbc : b ≤ c) : a ≤ c := by
  obtain ⟨a, rfl⟩ := isNumber_iff.1 (isNumber_of_le hab).1
  obtain ⟨b, rfl⟩ := isNumber_iff.1 (isNumber_of_le hbc).1
  obtain ⟨c, rfl⟩ := isNumber_iff.1 (isNumber_of_le hbc).2
  exact le_trans ((real_le_iff a b).1 hab) ((real_le_iff b c).1 hbc)

end Undefined

/-- The number that is read for a slope: an undefined one has no part above and none below zero. -/
def orZero : PartialReal → ℝ
  | real a => a
  | undefined => 0

end PartialReal

end MovingAsymptotes
