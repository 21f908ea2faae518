import MovingAsymptotes.Scalar

/-!
# Vectors and matrices

Sums in index order, inner products and the few matrix operations that the subproblem solvers use. A
matrix is a vector of rows. Products of matrices add up in index order; an inner product keeps eight
partial sums, one for each remainder of the index modulo eight.
-/

namespace MovingAsymptotes

/-- An index of the size of a vector is never out of bounds, so reading there asks for no proof. -/
instance instGetElemVectorFin {α : Type} {n : Nat} :
    GetElem (Vector α n) (Fin n) α fun _ _ => True where
  getElem v j _ := getElem v j.val j.isLt

@[simp] theorem getElem_fin {α : Type} {n : Nat} (v : Vector α n) (j : Fin n) :
    v[j] = getElem v j.val j.isLt := rfl

/-- The first of the indices that are smaller than a successor. -/
abbrev first (n : Nat) : Fin (n + 1) := ⟨0, n.succ_pos⟩

/-- A matrix with `rows` rows and `cols` columns, stored by rows. -/
abbrev Mat (α : Type) (rows cols : Nat) := Vector (Vector α cols) rows

namespace Mat

variable {α : Type} {n m : Nat}

/-- The matrix with the entries `f i j`. -/
def ofFn (f : Fin n → Fin m → α) : Mat α n m :=
  Vector.ofFn fun i => Vector.ofFn fun j => f i j

theorem getElem_ofFn (f : Fin n → Fin m → α) (i : Fin n) (j : Fin m) :
    (ofFn f)[i][j] = f i j := by
  simp [ofFn]

/-- The entries of a matrix, row after row. -/
def entries (a : Mat α n m) : Vector α (n * m) := Vector.flatten a

theorem entryIndex_lt (i : Fin n) (j : Fin m) : i.val * m + j.val < n * m := by
  have h : (i.val + 1) * m ≤ n * m := Nat.mul_le_mul_right m i.isLt
  have := j.isLt
  rw [Nat.add_mul] at h
  omega

/-- The matrix whose entries, row after row, are given. -/
def ofEntries (v : Vector α (n * m)) : Mat α n m :=
  ofFn fun i j =>
    have := entryIndex_lt i j
    v[i.val * m + j.val]

/-- Reading the entries back gives the matrix. -/
theorem ofEntries_entries (a : Mat α n m) : ofEntries a.entries = a := by
  ext i hi j hj
  have hm : 0 < m := Nat.lt_of_le_of_lt (Nat.zero_le j) hj
  have row : (i * m + j) / m = i := by
    rw [Nat.add_comm, Nat.add_mul_div_right _ _ hm, Nat.div_eq_of_lt hj, Nat.zero_add]
  simp [ofEntries, ofFn, entries, row, Nat.mod_eq_of_lt hj]

end Mat

variable {α : Type} [Scalar α] {n m : Nat}

/-- The sum of a family of scalars, added up from zero in index order. -/
def sumOver (f : Fin n → α) : α := Fin.foldl n (fun acc j => acc + f j) 0

/-- Eight partial sums joined, each with the one four places on. -/
def joinSums (sums : Vector α 8) : α :=
  sums[0] + sums[4] + (sums[1] + sums[5]) + (sums[2] + sums[6]) + (sums[3] + sums[7])

/-- Adds scalars to eight partial sums, eight at a time. In the end the partial sums are joined and what is
left of the list is added one by one. -/
def sumByEights (sums : Vector α 8) : List α → α
  | a :: b :: c :: d :: e :: f :: g :: h :: rest =>
    sumByEights (Vector.zipWith (· + ·) sums #v[a, b, c, d, e, f, g, h]) rest
  | rest => rest.foldl (· + ·) (joinSums sums)

/-- The inner product of two vectors. -/
def dot (u v : Vector α n) : α :=
  sumByEights (Vector.replicate 8 0) (Vector.zipWith (· * ·) u v).toList

/-- The smallest entry of a vector, if it has one. An entry that is not a number is kept until a later
one replaces it. -/
def least (v : Vector α n) : Option α :=
  v.toList.foldl (fun seen a => match seen with
    | none => some a
    | some b => some (if b ≤ a then b else a)) none

namespace Mat

/-- The matrix with rows and columns exchanged. -/
def transpose {α : Type} (a : Mat α n m) : Mat α m n := ofFn fun j i => a[i][j]

/-- The square matrix with the given diagonal and zeros elsewhere. -/
def diagonal (d : Vector α n) : Mat α n n := ofFn fun i j => if i = j then d[j] else 0

/-- The product of two matrices. -/
def mul {k : Nat} (a : Mat α n k) (b : Mat α k m) : Mat α n m :=
  ofFn fun i j => sumOver fun l : Fin k => a[i][l] * b[l][j]

/-- The product of a matrix and a column. -/
def mulVec (a : Mat α n m) (v : Vector α m) : Vector α n :=
  Vector.ofFn fun i => sumOver fun j : Fin m => a[i][j] * v[j]

/-- The product `a d aᵀ`, where `d` is the diagonal of a matrix. -/
def congruence (a : Mat α n m) (d : Vector α m) : Mat α n n :=
  (a.mul (diagonal d)).mul a.transpose

/-- The sum of the diagonal entries. -/
def trace (a : Mat α n n) : α := sumOver fun i : Fin n => a[i][i]

end Mat

end MovingAsymptotes
