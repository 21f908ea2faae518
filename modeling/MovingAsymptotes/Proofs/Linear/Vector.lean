import Mathlib
import MovingAsymptotes.Linear.Vector
import MovingAsymptotes.Proofs.Exact

/-!
# Vectors and matrices over the reals

In exact arithmetic the order of a summation is of no account: the running sums, the inner products with
their eight partial sums and the matrix products of the library are the sums of mathematics. The first
section reads entries at an index that is known to be in range.
-/

namespace MovingAsymptotes

section Entries

variable {α β γ : Type} {n m : Nat}

lemma vector_ext {u v : Vector α n} (h : ∀ i : Fin n, u[i] = v[i]) : u = v :=
  Vector.ext fun i hi => h ⟨i, hi⟩

lemma entry_ofFn (f : Fin n → α) (i : Fin n) : (Vector.ofFn f)[i] = f i :=
  Vector.getElem_ofFn i.isLt

lemma entry_map (f : α → β) (v : Vector α n) (i : Fin n) : (v.map f)[i] = f v[i] :=
  Vector.getElem_map f i.isLt

lemma entry_zipWith (f : α → β → γ) (u : Vector α n) (v : Vector β n) (i : Fin n) :
    (Vector.zipWith f u v)[i] = f u[i] v[i] :=
  Vector.getElem_zipWith i.isLt

lemma entry_replicate (a : α) (i : Fin n) : (Vector.replicate n a)[i] = a :=
  Vector.getElem_replicate i.isLt

lemma Mat.entry_transpose (a : Mat α n m) (j : Fin m) (i : Fin n) : a.transpose[j][i] = a[i][j] :=
  Mat.getElem_ofFn _ j i

lemma entry_push_castSucc (v : Vector α n) (a : α) (i : Fin n) : (v.push a)[i.castSucc] = v[i] :=
  Vector.getElem_push_lt i.isLt

lemma entry_push_last (v : Vector α n) (a : α) : (v.push a)[Fin.last n] = a :=
  Vector.getElem_push_eq

lemma toList_eq_map (v : Vector α n) : v.toList = (List.finRange n).map fun i => v[i] := by
  refine List.ext_getElem (by simp) fun i h₁ h₂ => ?_
  simp

lemma forall_mem_map_finRange {f : Fin n → α} {p : α → Prop} :
    (∀ a ∈ (List.finRange n).map f, p a) ↔ ∀ i, p (f i) := by
  simp

lemma forall_mem_toList {v : Vector α n} {p : α → Prop} :
    (∀ a ∈ v.toList, p a) ↔ ∀ i : Fin n, p v[i] := by
  rw [toList_eq_map, forall_mem_map_finRange]

/-- A list that is made up index by index has only entries with a certain property if each index gives
only such entries. -/
lemma forall_mem_flatMap_finRange {f : Fin n → List α} {p : α → Prop} :
    (∀ a ∈ (List.finRange n).flatMap f, p a) ↔ ∀ i, ∀ a ∈ f i, p a := by
  constructor
  · intro h i a ha
    exact h a (List.mem_flatMap.2 ⟨i, List.mem_finRange i, ha⟩)
  · intro h a ha
    obtain ⟨i, -, hi⟩ := List.mem_flatMap.1 ha
    exact h i a hi

end Entries

section Sums

variable {n m k : Nat}

lemma foldl_add_eq {ι M : Type} [AddMonoid M] (f : ι → M) (l : List ι) (a : M) :
    l.foldl (fun acc j => acc + f j) a = a + (l.map f).sum := by
  induction l generalizing a with
  | nil => simp
  | cons j l ih => rw [List.foldl_cons, ih, List.map_cons, List.sum_cons, add_assoc]

lemma sumOver_eq_sum (f : Fin n → ℝ) : sumOver f = ∑ i, f i := by
  unfold sumOver
  rw [Fin.foldl_eq_foldl_finRange, foldl_add_eq, zero_add, Fin.sum_univ_def]

lemma sum_toList (v : Vector ℝ n) : v.toList.sum = ∑ i : Fin n, v[i] := by
  rw [toList_eq_map, Fin.sum_univ_def]

lemma joinSums_eq (sums : Vector ℝ 8) : joinSums sums = ∑ i : Fin 8, sums[i] := by
  rw [Fin.sum_univ_eight]
  simp only [joinSums, getElem_fin, Fin.isValue, Fin.coe_ofNat_eq_mod, Nat.reduceMod]
  ring

/-- Partial sums joined in the end add up all entries. -/
lemma sumByEights_eq (sums : Vector ℝ 8) (l : List ℝ) :
    sumByEights sums l = ∑ i : Fin 8, sums[i] + l.sum := by
  fun_induction sumByEights sums l with
  | case1 sums a b c d e f g h rest ih =>
    rw [ih]
    simp [Fin.sum_univ_eight]
    ring
  | case2 sums rest =>
    rw [foldl_add_eq fun a : ℝ => a, List.map_id', joinSums_eq]

lemma dot_eq_sum (u v : Vector ℝ n) : dot u v = ∑ i : Fin n, u[i] * v[i] := by
  unfold dot
  rw [sumByEights_eq, sum_toList]
  simp

namespace Mat

lemma entry_mulVec (a : Mat ℝ n m) (v : Vector ℝ m) (i : Fin n) :
    (a.mulVec v)[i] = ∑ j : Fin m, a[i][j] * v[j] := by
  unfold mulVec
  rw [entry_ofFn, sumOver_eq_sum]

lemma entry_mul (a : Mat ℝ n k) (b : Mat ℝ k m) (i : Fin n) (j : Fin m) :
    (a.mul b)[i][j] = ∑ l : Fin k, a[i][l] * b[l][j] := by
  unfold mul
  rw [Mat.getElem_ofFn, sumOver_eq_sum]

lemma entry_diagonal (d : Vector ℝ n) (i j : Fin n) :
    (diagonal d)[i][j] = if i = j then d[j] else 0 :=
  Mat.getElem_ofFn _ i j

lemma entry_congruence (a : Mat ℝ n m) (d : Vector ℝ m) (i k : Fin n) :
    (a.congruence d)[i][k] = ∑ j : Fin m, a[i][j] * d[j] * a[k][j] := by
  unfold congruence
  rw [entry_mul]
  refine Finset.sum_congr rfl fun j _ => ?_
  rw [entry_mul, entry_transpose]
  congr 1
  calc ∑ l : Fin m, a[i][l] * (diagonal d)[l][j]
      = ∑ l : Fin m, if l = j then a[i][l] * d[j] else 0 := by
        refine Finset.sum_congr rfl fun l _ => ?_
        rw [entry_diagonal, mul_ite, mul_zero]
    _ = a[i][j] * d[j] := by rw [Finset.sum_ite_eq', if_pos (Finset.mem_univ j)]

/-- A row of `g d gᵀ` applied to a column. -/
lemma sum_congruence (g : Mat ℝ n m) (d : Vector ℝ m) (v : Fin n → ℝ) (i : Fin n) :
    ∑ k : Fin n, (g.congruence d)[i][k] * v k =
      ∑ j : Fin m, g[i][j] * d[j] * ∑ k : Fin n, g[k][j] * v k := by
  simp only [entry_congruence, Finset.sum_mul, Finset.mul_sum]
  rw [Finset.sum_comm]
  exact Finset.sum_congr rfl fun j _ => Finset.sum_congr rfl fun k _ => by ring

/-- A row of a matrix with an altered diagonal applied to a column. -/
lemma sum_add_diagonal {a b : Mat ℝ n n} {t : Fin n → ℝ}
    (h : ∀ i k : Fin n, a[i][k] = b[i][k] + if i = k then t i else 0) (v : Fin n → ℝ) (i : Fin n) :
    ∑ k : Fin n, a[i][k] * v k = ∑ k : Fin n, b[i][k] * v k + t i * v i := by
  simp only [h, add_mul, Finset.sum_add_distrib, ite_mul, zero_mul]
  rw [Finset.sum_ite_eq, if_pos (Finset.mem_univ i)]

end Mat

end Sums

end MovingAsymptotes
