import Mathlib
import MovingAsymptotes.Linear.Bordered
import MovingAsymptotes.Proofs.Linear.Elimination
import MovingAsymptotes.Proofs.Partial.Scalar

/-!
# Linear algebra over reals with an undefined value

From numbers the operations on vectors and matrices lead to the numbers that they lead to over the reals.
So does elimination, which divides by no pivot but those that it has found to be different from zero.

* `Mat.solve?_lift`, `Mat.solveBordered?_lift`: dense systems of numbers.
-/

namespace MovingAsymptotes

open PartialReal

variable {n m k : Nat}

/-- The vector of the same numbers. -/
def lift (v : Vector ℝ n) : Vector PartialReal n := v.map real

/-- The matrix of the same numbers. -/
def liftRows (a : Mat ℝ n m) : Mat PartialReal n m := a.map lift

section Entries

lemma entry_lift (v : Vector ℝ n) (j : Fin n) : (lift v)[j] = real v[j] := entry_map real v j

lemma entry_liftRows (a : Mat ℝ n m) (i : Fin n) : (liftRows a)[i] = lift a[i] := entry_map lift a i

lemma lift_eq_iff {u : Vector PartialReal n} {v : Vector ℝ n} :
    u = lift v ↔ ∀ j : Fin n, u[j] = real v[j] := by
  constructor
  · rintro rfl j
    exact entry_lift v j
  · intro h
    exact vector_ext fun j => (h j).trans (entry_lift v j).symm

lemma liftRows_eq_iff {b : Mat PartialReal n m} {a : Mat ℝ n m} :
    b = liftRows a ↔ ∀ (i : Fin n) (j : Fin m), b[i][j] = real a[i][j] := by
  constructor
  · rintro rfl i j
    rw [entry_liftRows, entry_lift]
  · intro h
    exact vector_ext fun i => (lift_eq_iff.2 (h i)).trans (entry_liftRows a i).symm

/-- A vector of numbers comes from the reals. -/
lemma exists_lift {u : Vector PartialReal n} (h : ∀ j : Fin n, IsNumber u[j]) : ∃ v, u = lift v := by
  choose f hf using fun j => isNumber_iff.1 (h j)
  exact ⟨Vector.ofFn f, lift_eq_iff.2 fun j => by rw [hf, entry_ofFn]⟩

lemma ofFn_real (f : Fin n → ℝ) : (Vector.ofFn fun j => real (f j)) = lift (Vector.ofFn f) :=
  lift_eq_iff.2 fun j => by rw [entry_ofFn, entry_ofFn]

lemma lift_replicate (a : ℝ) : Vector.replicate n (real a) = lift (Vector.replicate n a) :=
  lift_eq_iff.2 fun j => by rw [entry_replicate, entry_replicate]

lemma lift_zipWith {f : PartialReal → PartialReal → PartialReal} {g : ℝ → ℝ → ℝ}
    (h : ∀ a b, f (real a) (real b) = real (g a b)) (u v : Vector ℝ n) :
    Vector.zipWith f (lift u) (lift v) = lift (Vector.zipWith g u v) :=
  lift_eq_iff.2 fun j => by rw [entry_zipWith, entry_zipWith, entry_lift, entry_lift, h]

lemma lift_mul (u v : Vector ℝ n) :
    Vector.zipWith (· * ·) (lift u) (lift v) = lift (Vector.zipWith (· * ·) u v) :=
  lift_zipWith real_mul u v

lemma lift_neg (v : Vector ℝ n) : (lift v).map (- ·) = lift (v.map (- ·)) :=
  lift_eq_iff.2 fun j => by rw [entry_map, entry_map, entry_lift, real_neg]

/-- Positive numbers have numbers as inverses. -/
lemma lift_inverse {v : Vector ℝ n} (hv : ∀ j : Fin n, 0 < v[j]) :
    ((lift v).map fun d => 1 / d) = lift (v.map fun d => 1 / d) :=
  lift_eq_iff.2 fun j => by rw [entry_map, entry_map, entry_lift, one_eq, real_div (hv j).ne']

lemma lift_push (v : Vector ℝ n) (a : ℝ) : (lift v).push (real a) = lift (v.push a) := by
  refine lift_eq_iff.2 fun j => ?_
  cases j using Fin.lastCases with
  | last => rw [entry_push_last, entry_push_last]
  | cast j => rw [entry_push_castSucc, entry_push_castSucc, entry_lift]

lemma lift_pop (v : Vector ℝ (n + 1)) : (lift v).pop = lift v.pop :=
  lift_eq_iff.2 fun j => by simp [lift]

lemma lift_swap (v : Vector ℝ n) (i j : Fin n) :
    (lift v).swap i j i.isLt j.isLt = lift (v.swap i j i.isLt j.isLt) :=
  lift_eq_iff.2 fun k => by rw [Mat.entry_swap, Mat.entry_swap, entry_lift]

lemma liftRows_swap (a : Mat ℝ n m) (i j : Fin n) :
    (liftRows a).swap i j i.isLt j.isLt = liftRows (a.swap i j i.isLt j.isLt) :=
  liftRows_eq_iff.2 fun k l => by rw [Mat.entry_swap, Mat.entry_swap, entry_liftRows, entry_lift]

end Entries

section Sums

lemma sumOver_real (f : Fin n → ℝ) : (sumOver fun j => real (f j)) = real (sumOver f) := by
  unfold sumOver
  rw [Fin.foldl_eq_foldl_finRange, Fin.foldl_eq_foldl_finRange]
  exact List.foldl_hom real fun _ _ => rfl

lemma joinSums_lift (sums : Vector ℝ 8) : joinSums (lift sums) = real (joinSums sums) := by
  unfold joinSums lift
  simp only [Vector.getElem_map, real_add]

lemma sumByEights_lift (sums : Vector ℝ 8) (l : List ℝ) :
    sumByEights (lift sums) (l.map real) = real (sumByEights sums l) := by
  fun_induction sumByEights sums l with
  | case1 sums a b c d e f g h rest ih =>
    rw [← ih, ← lift_zipWith (f := (· + ·)) fun _ _ => rfl]
    exact congrArg (fun v => sumByEights (Vector.zipWith (· + ·) (lift sums) v) (rest.map real))
      (lift_eq_iff.2 fun j => by fin_cases j <;> rfl)
  | case2 sums rest hrest =>
    rw [sumByEights.eq_2 (lift sums) (rest.map real), joinSums_lift, List.foldl_map]
    · exact List.foldl_hom real fun _ _ => rfl
    · intro a b c d e f g h later hmap
      match rest, hmap with
      | _ :: _ :: _ :: _ :: _ :: _ :: _ :: _ :: _, _ => exact hrest _ _ _ _ _ _ _ _ _ rfl

lemma dot_lift (u v : Vector ℝ n) : dot (lift u) (lift v) = real (dot u v) := by
  unfold dot
  rw [zero_eq, lift_replicate, lift_zipWith (g := (· * ·)) fun _ _ => rfl]
  unfold lift
  rw [Vector.toList_map]
  exact sumByEights_lift _ _

end Sums

namespace Mat

lemma mulVec_lift (a : Mat ℝ n m) (v : Vector ℝ m) : (liftRows a).mulVec (lift v) = lift (a.mulVec v) := by
  unfold mulVec
  simp only [entry_liftRows, entry_lift, real_mul, sumOver_real, ofFn_real]

lemma ofFn_real (f : Fin n → Fin m → ℝ) : (Mat.ofFn fun i j => real (f i j)) = liftRows (Mat.ofFn f) :=
  liftRows_eq_iff.2 fun i j => by rw [Mat.getElem_ofFn, Mat.getElem_ofFn]

lemma transpose_lift (a : Mat ℝ n m) : (liftRows a).transpose = liftRows a.transpose := by
  unfold transpose
  simp only [entry_liftRows, entry_lift, ofFn_real]

lemma mul_lift (a : Mat ℝ n k) (b : Mat ℝ k m) : (liftRows a).mul (liftRows b) = liftRows (a.mul b) := by
  unfold mul
  simp only [entry_liftRows, entry_lift, real_mul, sumOver_real, ofFn_real]

lemma diagonal_lift (d : Vector ℝ n) : diagonal (lift d) = liftRows (diagonal d) := by
  refine liftRows_eq_iff.2 fun i j => ?_
  unfold diagonal
  rw [Mat.getElem_ofFn, Mat.getElem_ofFn, entry_lift, zero_eq, apply_ite real]

lemma congruence_lift (a : Mat ℝ n m) (d : Vector ℝ m) :
    (liftRows a).congruence (lift d) = liftRows (a.congruence d) := by
  unfold congruence
  rw [diagonal_lift, mul_lift, transpose_lift, mul_lift]

lemma entries_lift (a : Mat ℝ n m) : (liftRows a).entries = lift a.entries := by
  exact Vector.map_flatten.symm

lemma ofEntries_lift (v : Vector ℝ (n * m)) : (ofEntries (lift v) : Mat PartialReal n m) = liftRows (ofEntries v) := by
  unfold ofEntries
  refine liftRows_eq_iff.2 fun i j => ?_
  rw [Mat.getElem_ofFn, Mat.getElem_ofFn]
  exact Vector.getElem_map real (entryIndex_lt i j)

section Elimination

variable (a : Mat ℝ (n + 1) (n + 1)) (b : Vector ℝ (n + 1))

lemma pivotRow_lift : (liftRows a).pivotRow = a.pivotRow := by
  unfold pivotRow
  refine congrArg (fun f => Fin.foldl n f (first n)) (funext fun best => funext fun i => ?_)
  rw [entry_liftRows, entry_liftRows, entry_lift, entry_lift]
  exact if_congr Iff.rfl rfl rfl

variable (ha : a[first n][first n] ≠ 0)
include ha

lemma multiplier_lift (i : Fin n) : (liftRows a).multiplier i = real (a.multiplier i) := by
  unfold multiplier
  rw [entry_liftRows, entry_liftRows, entry_lift, entry_lift, one_eq, real_div ha, real_mul]

lemma eliminated_lift : (liftRows a).eliminated = liftRows a.eliminated := by
  unfold eliminated
  simp only [multiplier_lift a ha, entry_liftRows, entry_lift, real_neg, real_mul, real_add, ofFn_real]

lemma eliminatedRhs_lift : (liftRows a).eliminatedRhs (lift b) = lift (a.eliminatedRhs b) := by
  unfold eliminatedRhs
  simp only [multiplier_lift a ha, entry_lift, real_neg, real_mul, real_add, MovingAsymptotes.ofFn_real]

lemma firstUnknown_lift (x : Vector ℝ n) :
    (liftRows a).firstUnknown (lift b) (lift x) = real (a.firstUnknown b x) := by
  have folded : Fin.foldr n (fun j acc => acc + -(lift x)[j] * (liftRows a)[first n][j.succ]) (lift b)[first n] =
      real (Fin.foldr n (fun j acc => acc + -x[j] * a[first n][j.succ]) b[first n]) := by
    simp only [entry_liftRows, entry_lift, real_neg, real_mul]
    rw [Fin.foldr_eq_foldr_finRange, Fin.foldr_eq_foldr_finRange]
    exact List.foldr_hom real fun _ _ => rfl
  unfold firstUnknown
  rw [folded, entry_liftRows, entry_lift, real_div ha]

end Elimination

/-- Elimination with the equations in their order. -/
def solveTop? {α : Type} [Scalar α] (a : Mat α (n + 1) (n + 1)) (b : Vector α (n + 1)) :
    Option (Vector α (n + 1)) :=
  if Agrees a[first n][first n] 0 then none
  else (a.eliminated.solve? (a.eliminatedRhs b)).map fun x =>
    Vector.ofFn (Fin.cases (a.firstUnknown b x) fun j => x[j])

lemma solve?_succ {α : Type} [Scalar α] {a : Mat α (n + 1) (n + 1)} {b : Vector α (n + 1)} {i j : Fin (n + 1)}
    (hi : i = first n) (hj : j = a.pivotRow) :
    a.solve? b = solveTop? (a.swap i j i.isLt j.isLt) (b.swap i j i.isLt j.isLt) := by
  subst hi hj
  rfl

/-- Whatever the right-hand sides are, the first pivot of a system of numbers is zero or not as over the
reals, and a system of numbers is left. -/
lemma solveTop?_liftRows (a : Mat ℝ (n + 1) (n + 1)) (b : Vector PartialReal (n + 1)) :
    solveTop? (liftRows a) b = if Agrees a[first n][first n] 0 then none
      else ((liftRows a.eliminated).solve? ((liftRows a).eliminatedRhs b)).map fun x =>
        Vector.ofFn (Fin.cases ((liftRows a).firstUnknown b x) fun j => x[j]) := by
  unfold solveTop?
  rw [entry_liftRows, entry_lift, zero_eq]
  by_cases hp : Agrees a[first n][first n] 0
  · rw [if_pos hp, if_pos ((agrees_real_iff _ _).2 hp)]
  · have hne : a[first n][first n] ≠ 0 := fun h => hp (agrees_iff.2 h)
    rw [if_neg hp, if_neg fun h => hp ((agrees_real_iff _ _).1 h), eliminated_lift a hne]

/-- Elimination over numbers comes to the numbers that it comes to over the reals, or finds the same
pivot to be zero. -/
theorem solve?_lift (a : Mat ℝ n n) (b : Vector ℝ n) : (liftRows a).solve? (lift b) = (a.solve? b).map lift := by
  induction n with
  | zero => exact congrArg some (vector_ext fun i => i.elim0)
  | succ n ih =>
    have top : ∀ (a : Mat ℝ (n + 1) (n + 1)) (b : Vector ℝ (n + 1)),
        solveTop? (liftRows a) (lift b) = (solveTop? a b).map lift := by
      intro a b
      rw [solveTop?_liftRows]
      unfold solveTop?
      split
      · rfl
      · next hp =>
        have hne : a[first n][first n] ≠ 0 := fun h => hp (agrees_iff.2 h)
        rw [eliminatedRhs_lift a b hne, ih, Option.map_map, Option.map_map]
        refine congrArg (Option.map · _) (funext fun x => lift_eq_iff.2 fun j => ?_)
        dsimp only [Function.comp_apply]
        rw [entry_ofFn, entry_ofFn]
        cases j using Fin.cases with
        | zero => exact firstUnknown_lift a b hne x
        | succ j => exact entry_lift x j
    rw [solve?_succ rfl (pivotRow_lift a).symm, solve?_succ rfl rfl, liftRows_swap, lift_swap, top]

lemma bordered_lift (block : Mat ℝ n n) (edge : Vector ℝ n) (corner : ℝ) :
    bordered (liftRows block) (lift edge) (real corner) = liftRows (bordered block edge corner) := by
  unfold bordered
  refine liftRows_eq_iff.2 fun i j => ?_
  cases i using Fin.lastCases with
  | last => rw [entry_push_last, entry_push_last, lift_push, entry_lift]
  | cast i =>
    rw [entry_push_castSucc, entry_push_castSucc, entry_ofFn, entry_ofFn, entry_liftRows, entry_lift,
      lift_push, entry_lift]

/-- So does elimination of a bordered system. -/
theorem solveBordered?_lift (block : Mat ℝ n n) (edge : Vector ℝ n) (corner : ℝ) (rhs : Vector ℝ n)
    (last : ℝ) : (liftRows block).solveBordered? (lift edge) (real corner) (lift rhs) (real last) =
      (block.solveBordered? edge corner rhs last).map fun (x, t) => (lift x, real t) := by
  unfold solveBordered?
  rw [bordered_lift, lift_push, solve?_lift, Option.map_map, Option.map_map]
  refine congrArg (Option.map · _) (funext fun x => ?_)
  exact Prod.ext (lift_pop x) (entry_lift x (Fin.last n))

end Mat

end MovingAsymptotes
