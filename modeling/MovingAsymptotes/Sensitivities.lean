import MovingAsymptotes.Weights
import MovingAsymptotes.Linear.Vector

/-!
# Sensitivities

Function values and gradients at a design. A caller supplies them with extents of its own choice;
`Sensitivities.matched` checks them against the number of design variables and gives them their sizes.
-/

namespace MovingAsymptotes

/-- A matrix of any extent. -/
structure Table (α : Type) where
  rows : Nat
  cols : Nat
  entries : Mat α rows cols

/-- The table with the given rows, if all of them have `cols` entries. -/
def Table.ofRows? {α : Type} (cols : Nat) (rows : Array (Array α)) : Option (Table α) :=
  if h : ∀ i : Fin rows.size, rows[i].size = cols then
    some { rows := rows.size, cols, entries := Vector.ofFn fun i => ⟨rows[i], h i⟩ }
  else none

/-- Function values and gradients as a caller supplies them. -/
structure Sensitivities (α : Type) where
  dfdx : Array α
  g : Array α
  /-- The gradients of the constraints, one column for each. -/
  dgdx : Table α

/-- Gradients of the objective and of `m` constraints for `n` variables, and the constraint values. -/
structure Gradients (α : Type) (n m : Nat) where
  dfdx : Vector α n
  g : Vector α m
  /-- The gradients of the constraints, one column for each. -/
  dgdx : Mat α n m

variable {α : Type}

/-- The entries of a table, if it has `n` rows and `m` columns. -/
def Table.matched (t : Table α) (n m : Nat) : Except (Cause α) (Mat α n m) :=
  if hr : t.rows = n then
    if hc : t.cols = m then .ok ((t.entries.map (Vector.cast hc)).cast hr)
    else .error (.dimensionMismatch "constraint gradient columns" m t.cols)
  else .error (.dimensionMismatch "constraint gradient rows" n t.rows)

/-- The gradients for `n` variables, if the extents fit them and each other. -/
def Sensitivities.matched (s : Sensitivities α) (n : Nat) :
    Except (Cause α) (Gradients α n s.g.size) := do
  let dfdx ← checkedLength "objective gradient" n s.dfdx
  let dgdx ← s.dgdx.matched n s.g.size
  return { dfdx, g := s.g.toVector, dgdx }

end MovingAsymptotes
