import MovingAsymptotes.Failure
import MovingAsymptotes.Linear.Vector
import MovingAsymptotes.Scalar

/-!
# Reductions

A group of ranks combines one buffer from each rank, entry by entry and in rank order, so that every
rank computes the same result to the last bit. Buffers of different lengths cannot be combined, and the
lowest rank whose length is wrong is named.
-/

namespace MovingAsymptotes

/-- How the buffers of a group are combined. -/
inductive Reduction where
  | sum
  | max
deriving DecidableEq, Repr

variable {α : Type}

/-- The buffer that a rank contributes where `expected` entries are wanted. -/
def contribution (expected rank : Nat) (buffer : Array α) :
    Except CollectiveFault (Vector α expected) :=
  if h : buffer.size = expected then .ok ⟨buffer, h⟩
  else .error (.lengthMismatch rank buffer.size expected)

/-- A buffer of the expected length is contributed as it is. -/
theorem contribution_toArray {k : Nat} (rank : Nat) (buffer : Vector α k) :
    contribution k rank buffer.toArray = .ok buffer := by
  simp [contribution]

namespace Reduction

variable [Scalar α]

/-- Two entries combined. -/
def apply : Reduction → α → α → α
  | .sum, a, b => a + b
  | .max, a, b => larger a b

/-- Two buffers combined entry by entry. -/
def merge {k : Nat} (op : Reduction) (u v : Vector α k) : Vector α k := Vector.zipWith op.apply u v

/-- The buffers of all ranks combined in rank order: that of rank zero, then those of `others`. Each of
them has to have `expected` entries. -/
def combine (op : Reduction) (expected : Nat) (first : Array α) (others : List (Array α)) :
    Except CollectiveFault (Vector α expected) := do
  let start ← contribution expected 0 first
  let rest ← (others.zipIdx 1).mapM fun (buffer, rank) => contribution expected rank buffer
  return rest.foldl op.merge start

end Reduction

end MovingAsymptotes
