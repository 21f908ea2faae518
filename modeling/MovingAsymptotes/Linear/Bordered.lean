import MovingAsymptotes.Linear.Elimination

/-!
# Bordered systems

Symmetric systems in a vector of unknowns and one more: a square block, the column and row that border
it, and the corner.
-/

namespace MovingAsymptotes.Mat

variable {α : Type} [Scalar α] {n : Nat}

/-- A square block bordered by `edge` on the right and below, with `corner` where they meet. -/
def bordered (block : Mat α n n) (edge : Vector α n) (corner : α) : Mat α (n + 1) (n + 1) :=
  (Vector.ofFn fun i : Fin n => block[i].push edge[i]).push (edge.push corner)

/-- The solution of a bordered system: the unknowns of the block, and the last one. -/
def solveBordered? (block : Mat α n n) (edge : Vector α n) (corner : α) (rhs : Vector α n)
    (last : α) : Option (Vector α n × α) :=
  ((bordered block edge corner).solve? (rhs.push last)).map fun x => (x.pop, x[n])

end MovingAsymptotes.Mat
