import MovingAsymptotes.Linear.Vector

/-!
# Dense linear systems

Gaussian elimination with partial pivoting, by recursion on the number of unknowns: the equation with
the largest leading coefficient is brought to the top, the first unknown is eliminated from the others,
the smaller system is solved, and the first unknown follows from the top equation. A system has no
answer exactly when some pivot is zero.
-/

namespace MovingAsymptotes.Mat

variable {α : Type} [Scalar α] {n : Nat}

/-- The first of the equations whose leading coefficient is largest in absolute value. -/
def pivotRow (a : Mat α (n + 1) (n + 1)) : Fin (n + 1) :=
  Fin.foldl n
    (fun best i =>
      if Scalar.abs a[best][first n] < Scalar.abs a[i.succ][first n] then i.succ else best)
    (first n)

/-- The multiple of the top equation that is taken from equation `i` below it. -/
def multiplier (a : Mat α (n + 1) (n + 1)) (i : Fin n) : α :=
  a[i.succ][first n] * (1 / a[first n][first n])

/-- The system left for the later unknowns once the first is eliminated. -/
def eliminated (a : Mat α (n + 1) (n + 1)) : Mat α n n :=
  ofFn fun i j => a[i.succ][j.succ] + -a[first n][j.succ] * a.multiplier i

/-- The right-hand sides left once the first unknown is eliminated. -/
def eliminatedRhs (a : Mat α (n + 1) (n + 1)) (b : Vector α (n + 1)) : Vector α n :=
  Vector.ofFn fun i => b[i.succ] + -b[first n] * a.multiplier i

/-- The first unknown, from the top equation and the later unknowns. -/
def firstUnknown (a : Mat α (n + 1) (n + 1)) (b : Vector α (n + 1)) (x : Vector α n) : α :=
  Fin.foldr n (fun j acc => acc + -x[j] * a[first n][j.succ]) b[first n] / a[first n][first n]

/-- Solves `a x = b`, or answers `none` if a pivot is zero. -/
def solve? : {n : Nat} → Mat α n n → Vector α n → Option (Vector α n)
  | 0, _, _ => some #v[]
  | n + 1, a, b =>
    let top := pivotRow a
    let a : Mat α (n + 1) (n + 1) := a.swap (first n) top
    let b := b.swap (first n) top
    if Agrees a[first n][first n] 0 then none
    else (solve? a.eliminated (a.eliminatedRhs b)).map fun x =>
      Vector.ofFn (Fin.cases (a.firstUnknown b x) fun j => x[j])

end MovingAsymptotes.Mat
