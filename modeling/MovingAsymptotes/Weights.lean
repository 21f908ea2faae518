import MovingAsymptotes.Linear.Vector
import MovingAsymptotes.Settings

/-!
# Weights of the artificial variables

The subproblem is made feasible by artificial variables: `y`, one for each constraint, and `z`, shared by
all. Their weights enter the objective as `a0 * z + ∑ (c * y + d * y ^ 2 / 2)`, and the constraint with
index `i` is relaxed to `f i - a i * z - y i ≤ 0`.

A caller edits a draft, whose vectors may have any length. `Weights α m` has one entry for each of `m`
constraints and is what the solvers take.
-/

namespace MovingAsymptotes

/-- Weights for `m` constraints. -/
structure Weights (α : Type) (m : Nat) where
  /-- The linear weight of `z`. -/
  a0 : α
  /-- The curvature that the dual method gives `z`. -/
  b0 : α
  /-- The share of `z` in each constraint. -/
  a : Vector α m
  /-- The linear weights of `y`. -/
  c : Vector α m
  /-- The quadratic weights of `y`. -/
  d : Vector α m

/-- Weights as a caller leaves them, with vectors of any length. -/
structure WeightDraft (α : Type) where
  /-- The linear weight of `z`. -/
  a0 : α
  /-- The curvature that the dual method gives `z`. -/
  b0 : α
  /-- The share of `z` in each constraint. -/
  a : Array α
  /-- The linear weights of `y`. -/
  c : Array α
  /-- The quadratic weights of `y`. -/
  d : Array α

variable {α : Type}

/-- The vector with the entries of an array, if the array has `expected` of them. -/
def checkedLength (what : String) (expected : Nat) (values : Array α) :
    Except (Cause α) (Vector α expected) :=
  if h : values.size = expected then .ok ⟨values, h⟩
  else .error (.dimensionMismatch what expected values.size)

/-- A check of the length gives the array itself and nothing else. -/
theorem checkedLength_eq_ok_iff {what : String} {k : Nat} {values : Array α} {v : Vector α k} :
    checkedLength what k values = .ok v ↔ values = v.toArray := by
  unfold checkedLength
  split
  · rw [Except.ok.injEq, ← Vector.toArray_inj]
  · rename_i h
    exact ⟨nofun, fun e => absurd (e ▸ v.size_toArray) h⟩

namespace WeightDraft

/-- The number of constraints that the draft is meant for, taken from its vector `a`. -/
def size (w : WeightDraft α) : Nat := w.a.size

/-- The weights for `m` constraints, if all three vectors have that length. -/
def sized (w : WeightDraft α) (m : Nat) : Except (Cause α) (Weights α m) := do
  let a ← checkedLength "weight a" m w.a
  let c ← checkedLength "weight c" m w.c
  let d ← checkedLength "weight d" m w.d
  return { a0 := w.a0, b0 := w.b0, a, c, d }

/-- A draft has a size if it holds exactly the entries of weights of that size. -/
theorem sized_eq_ok_iff {w : WeightDraft α} {m : Nat} {s : Weights α m} :
    w.sized m = .ok s ↔ w = ⟨s.a0, s.b0, s.a.toArray, s.c.toArray, s.d.toArray⟩ := by
  obtain ⟨a0, b0, a, c, d⟩ := w
  constructor
  · intro h
    unfold sized at h
    cases ha : checkedLength "weight a" m a with
    | error e => simp [ha, bind, Except.bind] at h
    | ok va =>
      cases hc : checkedLength "weight c" m c with
      | error e => simp [ha, hc, bind, Except.bind] at h
      | ok vc =>
        cases hd : checkedLength "weight d" m d with
        | error e => simp [ha, hc, hd, bind, Except.bind] at h
        | ok vd =>
          simp only [ha, hc, hd, bind, Except.bind, pure, Except.pure, Except.ok.injEq] at h
          subst h
          rw [checkedLength_eq_ok_iff] at ha hc hd
          simp [ha, hc, hd]
  · intro h
    cases h
    simp [sized, checkedLength, bind, Except.bind, pure, Except.pure]

/-- The weights for `m` constraints, where `c` and `d` may run on past them. The vector `a` says how many
constraints the draft is meant for and has to fit. -/
def leading? (w : WeightDraft α) (m : Nat) : Option (Weights α m) :=
  ({ w with c := w.c.take m, d := w.d.take m }.sized m).toOption

/-- Weights of the right size serve as they are. -/
theorem leading?_of_sized {w : WeightDraft α} {m : Nat} {s : Weights α m}
    (h : w.sized m = .ok s) : w.leading? m = some s := by
  rw [sized_eq_ok_iff] at h
  subst h
  have whole (v : Vector α m) : v.toArray.take m = v.toArray := by simp
  simp only [leading?, whole]
  rw [sized_eq_ok_iff.2 rfl]
  rfl

end WeightDraft

variable [Scalar α]

/-- The first entry of `d` that is not positive and finite. -/
def Weights.firstBadEntry? {m : Nat} (w : Weights α m) : Option (Fin m) :=
  (List.finRange m).find? fun i => ¬ IsPositive w.d[i]

namespace WeightDraft

/-- The usual weights for `m` constraints. -/
def default (m : Nat) : WeightDraft α where
  a0 := 1
  b0 := 1
  a := Array.replicate m 0
  c := Array.replicate m 1000.0
  d := Array.replicate m 1

/-- The weights for `m` constraints, if the lengths fit and the divisors `b0` and `d` are positive and
finite. -/
def validate (w : WeightDraft α) (m : Nat) : Except (Cause α) (Weights α m) := do
  let sized ← w.sized m
  (requirePositive "b0" sized.b0).mapError .invalidSetting
  match sized.firstBadEntry? with
  | none => return sized
  | some i => .error (.invalidSetting (.entryNotPositive "d" i sized.d[i]))

end WeightDraft

end MovingAsymptotes
