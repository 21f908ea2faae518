import MovingAsymptotes.Proofs.Kkt.Residual
import MovingAsymptotes.Proofs.Partial.Solvers

/-!
# Constraints without values

A subproblem whose constraints have no values differs from one of numbers in its right-hand sides alone.
They take no part in the matrix of a Newton step, so there is a direction, but nothing in it is a number.
An undefined overshoot bounds no step and an undefined residual ends every line search, so the interior-point
method takes the step and none of its point is left.

* `Mat.solve?_blank`: a dense system without right-hand sides.
* `Approximation.newtonDirection_unvalued`: the direction.
* `Approximation.solveInterior_unvalued`: the interior-point method.
-/

namespace MovingAsymptotes

open PartialReal

variable {n m : Nat}

/-- The vector without a number. -/
def blank (n : Nat) : Vector PartialReal n := Vector.replicate n undefined

lemma entry_blank (j : Fin n) : (blank n)[j] = undefined := entry_replicate undefined j

lemma eq_blank_iff {v : Vector PartialReal n} : v = blank n ↔ ∀ j : Fin n, v[j] = undefined := by
  constructor
  · rintro rfl j
    exact entry_blank j
  · exact fun h => vector_ext fun j => (h j).trans (entry_blank j).symm

lemma ofFn_undefined : (Vector.ofFn fun _ : Fin n => undefined) = blank n :=
  eq_blank_iff.2 fun j => entry_ofFn _ j

section Sums

lemma foldl_add_undefined {l : List PartialReal} {a : PartialReal} (h : a = undefined ∨ undefined ∈ l) :
    l.foldl (· + ·) a = undefined := by
  induction l generalizing a with
  | nil => exact h.resolve_right List.not_mem_nil
  | cons b l ih =>
    refine ih ?_
    rcases h with rfl | h
    · exact .inl (undefined_add b)
    · rcases List.mem_cons.1 h with rfl | h
      · exact .inl (add_undefined a)
      · exact .inr h

/-- One undefined term makes a sum undefined. -/
lemma sumOver_undefined {f : Fin n → PartialReal} (i : Fin n) (h : f i = undefined) :
    sumOver f = undefined := by
  unfold sumOver
  rw [Fin.foldl_eq_foldl_finRange, ← List.foldl_map (f := f) (g := (· + ·))]
  exact foldl_add_undefined (.inr (h ▸ List.mem_map_of_mem (List.mem_finRange i)))

lemma joinSums_undefined {sums : Vector PartialReal 8} (i : Fin 8) (h : sums[i] = undefined) :
    joinSums sums = undefined := by
  unfold joinSums
  fin_cases i <;> simp at h <;> simp [h]

lemma sumByEights_undefined {sums : Vector PartialReal 8} {l : List PartialReal}
    (hu : (∃ i : Fin 8, sums[i] = undefined) ∨ undefined ∈ l) : sumByEights sums l = undefined := by
  fun_induction sumByEights sums l with
  | case1 sums a b c d e f g h rest ih =>
    apply ih
    rcases hu with ⟨i, hi⟩ | hu
    · exact .inl ⟨i, by rw [entry_zipWith, hi, undefined_add]⟩
    · have block : undefined ∈ #v[a, b, c, d, e, f, g, h].toList ++ rest := hu
      rcases List.mem_append.1 block with hu | hu
      · rw [toList_eq_map] at hu
        obtain ⟨i, -, hi⟩ := List.mem_map.1 hu
        exact .inl ⟨i, by rw [entry_zipWith, hi, add_undefined]⟩
      · exact .inr hu
  | case2 sums rest =>
    apply foldl_add_undefined
    rcases hu with ⟨i, hi⟩ | hu
    · exact .inl (joinSums_undefined i hi)
    · exact .inr hu

lemma dot_undefined {u v : Vector PartialReal n} (i : Fin n) (h : v[i] = undefined) : dot u v = undefined := by
  refine sumByEights_undefined (.inr ?_)
  rw [toList_eq_map]
  refine List.mem_map.2 ⟨i, List.mem_finRange i, ?_⟩
  rw [entry_zipWith, h, mul_undefined]

end Sums

namespace Mat

lemma mulVec_blank (hm : 0 < m) (a : Mat PartialReal n m) : a.mulVec (blank m) = blank n := by
  refine eq_blank_iff.2 fun i => ?_
  unfold mulVec
  rw [entry_ofFn]
  exact sumOver_undefined ⟨0, hm⟩ (by rw [entry_blank, mul_undefined])

lemma eliminatedRhs_blank (a : Mat PartialReal (n + 1) (n + 1)) : a.eliminatedRhs (blank (n + 1)) = blank n := by
  refine eq_blank_iff.2 fun i => ?_
  unfold eliminatedRhs
  rw [entry_ofFn, entry_blank, undefined_add]

lemma firstUnknown_blank (a : Mat PartialReal (n + 1) (n + 1)) (x : Vector PartialReal n) :
    a.firstUnknown (blank (n + 1)) x = undefined := by
  have folded : ∀ l : List (Fin n),
      l.foldr (fun j acc => acc + -x[j] * a[first n][j.succ]) undefined = undefined := by
    intro l
    induction l with
    | nil => rfl
    | cons j l ih => rw [List.foldr_cons, ih, undefined_add]
  unfold firstUnknown
  rw [Fin.foldr_eq_foldr_finRange, entry_blank, folded, undefined_div]

/-- Without right-hand sides a system of numbers has a solution as before, but none of its unknowns is a
number. -/
theorem solve?_blank (a : Mat ℝ n n) (b : Vector ℝ n) :
    (liftRows a).solve? (blank n) = (a.solve? b).map fun _ => blank n := by
  induction n with
  | zero => exact congrArg some (vector_ext fun i => i.elim0)
  | succ n ih =>
    have top : ∀ (a : Mat ℝ (n + 1) (n + 1)) (b : Vector ℝ (n + 1)),
        solveTop? (liftRows a) (blank (n + 1)) = (solveTop? a b).map fun _ => blank (n + 1) := by
      intro a b
      rw [solveTop?_liftRows]
      unfold solveTop?
      split
      · rfl
      · rw [eliminatedRhs_blank, ih _ (a.eliminatedRhs b), Option.map_map, Option.map_map]
        refine congrArg (Option.map · _) (funext fun x => eq_blank_iff.2 fun j => ?_)
        dsimp only [Function.comp_apply]
        rw [entry_ofFn]
        cases j using Fin.cases with
        | zero => exact firstUnknown_blank _ _
        | succ j => exact entry_blank j
    have swapped : (blank (n + 1)).swap (first n) a.pivotRow = blank (n + 1) :=
      eq_blank_iff.2 fun k => by rw [entry_swap, entry_blank]
    rw [solve?_succ rfl (pivotRow_lift a).symm, solve?_succ rfl rfl, liftRows_swap, swapped]
    exact top _ _

lemma solveBordered?_blank (block : Mat ℝ n n) (edge : Vector ℝ n) (corner : ℝ) (rhs : Vector ℝ n) (last : ℝ) :
    (liftRows block).solveBordered? (lift edge) (real corner) (blank n) undefined =
      (block.solveBordered? edge corner rhs last).map fun _ => (blank n, undefined) := by
  have pushed : (blank n).push undefined = blank (n + 1) := by
    refine eq_blank_iff.2 fun j => ?_
    cases j using Fin.lastCases with
    | last => rw [entry_push_last]
    | cast j => rw [entry_push_castSucc, entry_blank]
  have popped : (blank (n + 1)).pop = blank n := eq_blank_iff.2 fun j => by simp [blank]
  unfold solveBordered?
  rw [bordered_lift, pushed, solve?_blank _ (rhs.push last), Option.map_map, Option.map_map]
  refine congrArg (Option.map · _) (funext fun x => ?_)
  exact Prod.ext popped (entry_blank (Fin.last n))

end Mat

/-- The point without a number. -/
def KktPoint.blank (n m : Nat) : KktPoint PartialReal n m where
  x := MovingAsymptotes.blank n
  y := MovingAsymptotes.blank m
  z := undefined
  lambda := MovingAsymptotes.blank m
  xsi := MovingAsymptotes.blank n
  eta := MovingAsymptotes.blank n
  mu := MovingAsymptotes.blank m
  zet := undefined
  s := MovingAsymptotes.blank m

namespace NewtonBlocks

/-- The blocks of numbers without the right-hand sides of the constraints. -/
def unvalued (k : NewtonBlocks ℝ n m) : NewtonBlocks PartialReal n m := { k.lifted with dellam := blank m }

lemma dellamyi_unvalued (k : NewtonBlocks ℝ n m) (i : Fin m) : k.unvalued.dellamyi i = undefined := by
  unfold dellamyi unvalued
  rw [entry_blank, undefined_add]

/-- The elimination of the multipliers and `y` comes to a direction without a number. -/
lemma solveForDesign_unvalued {k : NewtonBlocks ℝ n m} (hk : k.Positive) (hm : 0 < m) (shares : Vector ℝ m) :
    k.unvalued.solveForDesign (lift shares) = .pure ⟨blank n, blank m, undefined⟩ := by
  have scaled : (Vector.ofFn fun i : Fin m => k.unvalued.dellamyi i *
      (k.unvalued.diaglamyi.map fun d => 1 / d)[i]) = blank m :=
    eq_blank_iff.2 fun i => by rw [entry_ofFn, dellamyi_unvalued, undefined_mul]
  have rhs : (Vector.ofFn fun j : Fin n => -(k.unvalued.delx[j] + (blank n)[j])) = blank n :=
    eq_blank_iff.2 fun j => by rw [entry_ofFn, entry_blank, add_undefined, neg_undefined]
  have share : dot (lift shares) (blank m) = undefined := dot_undefined ⟨0, hm⟩ (entry_blank _)
  obtain ⟨dx, dz, hd, -⟩ := (designBlock_regular shares hk).exists_solveBordered? (Vector.replicate n 0) 0
  unfold designBlock at hd
  unfold solveForDesign
  dsimp only
  rw [scaled, Mat.mulVec_blank hm, rhs, share, sub_undefined, neg_undefined]
  unfold unvalued lifted
  simp only [lift_inverse hk.diaglamyi, lift_mul, lift_neg, Mat.transpose_lift, Mat.congruence_lift,
    Mat.mulVec_lift, dot_lift, entry_liftRows, entry_lift, real_add, ite_real, Mat.ofFn_real]
  rw [Mat.solveBordered?_blank _ _ _ (Vector.replicate n 0) 0, hd]
  simp only [Option.map_some, entry_blank, add_undefined, ofFn_undefined]

/-- So does the back-substitution. -/
lemma complete_blank (k : NewtonBlocks PartialReal n m) (a : Approximation PartialReal n m)
    (w : KktPoint PartialReal n m) (epsi : PartialReal) :
    k.complete a w epsi ⟨blank n, blank m, undefined⟩ = KktPoint.blank n m := by
  unfold complete KktPoint.blank
  simp only [entry_blank, undefined_sub, mul_undefined, undefined_div, sub_undefined, add_undefined, ofFn_undefined]

end NewtonBlocks

namespace Approximation

/-- The approximation of numbers without the right-hand sides of the constraints. -/
def unvalued (a : Approximation ℝ n m) : Approximation PartialReal n m := { a.lifted with b := blank m }

variable {a : Approximation ℝ n m} {wt : Weights ℝ m} {w : KktPoint ℝ n m}

lemma ofPoint_unvalued (ha : a.WellPosed) (hw : wt.Valid) (hi : w.Interior a) (epsi : ℝ) (sums : Vector ℝ m) :
    NewtonBlocks.ofPoint a.unvalued wt.lifted w.lifted (real epsi) (lift sums) =
      (NewtonBlocks.ofPoint a wt w epsi sums).unvalued := by
  unfold NewtonBlocks.unvalued
  rw [← NewtonBlocks.ofPoint_lifted ha hw hi]
  have dellam : (NewtonBlocks.ofPoint a.unvalued wt.lifted w.lifted (real epsi) (lift sums)).dellam = blank m := by
    refine eq_blank_iff.2 fun i => ?_
    unfold NewtonBlocks.ofPoint unvalued
    rw [entry_ofFn, entry_blank, sub_undefined, undefined_add]
  rw [← dellam]
  rfl

/-- On a single rank with at least as many constraints as variables, there is a Newton direction, but none of
it is a number. -/
theorem newtonDirection_unvalued (ha : a.WellPosed) (hw : wt.Valid) (hi : w.Interior a) (hm : 0 < m)
    (hn : a.nGlobal ≤ m) (rounds : Nat) (epsi : ℝ) :
    (a.unvalued.newtonDirection wt.lifted (.single rounds) w.lifted (real epsi)).Returns
      (· = KktPoint.blank n m) := by
  have sums : a.unvalued.localSums w.lifted.x = lift (a.localSums w.x) := localSums_lifted ha hi.contains
  have one : ¬ (1 < (Execution.single rounds).ranks ∨ m < a.unvalued.nGlobal) := by
    rintro (h | h)
    · exact lt_irrefl 1 h
    · exact absurd h (not_lt.2 hn)
  unfold newtonDirection
  rw [sums]
  refine (Program.returns_reduceAll _ _).bind ?_
  rintro _ rfl
  dsimp only
  have hk := NewtonBlocks.ofPoint_positive ha.convex hw.d_pos hi epsi (a.localSums w.x)
  rw [ofPoint_unvalued ha hw hi, if_neg one]
  unfold Weights.lifted
  rw [NewtonBlocks.solveForDesign_unvalued hk hm]
  exact Program.returns_pure (NewtonBlocks.complete_blank _ _ _ _)

section Step

variable (a : Approximation PartialReal n m) (wt : Weights PartialReal m) (w : KktPoint PartialReal n m)

lemma foldl_larger_undefined {l : List PartialReal} (h : ∀ v ∈ l, v = undefined) (c : PartialReal) :
    l.foldl larger c = c := by
  induction l generalizing c with
  | nil => rfl
  | cons v l ih =>
    obtain ⟨rfl, hl⟩ := List.forall_mem_cons.1 h
    rw [List.foldl_cons, larger_undefined, ih hl]

lemma lt_larger {c k : ℝ} (h : c < k) (b : PartialReal) : real c < larger (real k) b := by
  cases b with
  | real b =>
    rw [larger_real, larger_eq_max]
    exact h.trans_le (le_max_left k b)
  | undefined =>
    rw [larger_undefined]
    exact h

lemma overshoot_undefined (v : PartialReal) {dv : PartialReal} (h : dv = undefined) :
    overshoot v dv = undefined := by
  unfold overshoot
  rw [h, mul_undefined, undefined_div]

/-- A direction without a number bounds no step. -/
lemma inverseStep_blank : (a.inverseStep w (KktPoint.blank n m)).Returns (· = 1) := by
  have opposite : ∀ j : Fin n, -(KktPoint.blank n m).x[j] = undefined := by
    intro j
    exact congrArg (- ·) (entry_blank j)
  have own : ∀ v ∈ a.localOvershoots w (KktPoint.blank n m), v = undefined := by
    refine forall_mem_flatMap_finRange.2 fun j v hv => ?_
    simp only [List.mem_cons, List.not_mem_nil, or_false] at hv
    rcases hv with rfl | rfl | rfl | rfl
    · exact overshoot_undefined _ (entry_blank j)
    · exact overshoot_undefined _ (entry_blank j)
    · exact overshoot_undefined _ (entry_blank j)
    · exact overshoot_undefined _ (opposite j)
  have shared : ∀ v ∈ sharedOvershoots w (KktPoint.blank n m), v = undefined := by
    refine List.forall_mem_append.2 ⟨fun v hv => ?_, forall_mem_flatMap_finRange.2 fun i v hv => ?_⟩
    · simp only [List.mem_cons, List.not_mem_nil, or_false] at hv
      rcases hv with rfl | rfl
      · exact overshoot_undefined _ rfl
      · exact overshoot_undefined _ rfl
    · simp only [List.mem_cons, List.not_mem_nil, or_false] at hv
      rcases hv with rfl | rfl | rfl | rfl
      · exact overshoot_undefined _ (entry_blank i)
      · exact overshoot_undefined _ (entry_blank i)
      · exact overshoot_undefined _ (entry_blank i)
      · exact overshoot_undefined _ (entry_blank i)
  unfold inverseStep
  rw [foldl_larger_undefined own]
  refine (Program.returns_reduceScalar _ _).bind ?_
  rintro _ rfl
  exact Program.returns_pure (foldl_larger_undefined shared _)

lemma stepped_blank (step : PartialReal) : w.stepped (KktPoint.blank n m) step = KktPoint.blank n m := by
  have along : ∀ {k : Nat} (u : Vector PartialReal k),
      KktPoint.along u (MovingAsymptotes.blank k) step = MovingAsymptotes.blank k := by
    intro k u
    refine eq_blank_iff.2 fun j => ?_
    unfold KktPoint.along
    rw [entry_zipWith, entry_blank, undefined_mul, add_undefined]
  unfold KktPoint.stepped KktPoint.blank
  simp only [along, undefined_mul, add_undefined]

lemma residual_returns (epsi : PartialReal) : (a.residual wt w epsi).Returns fun r =>
    ∃ shared, r.max = larger (Tally.ofRows (a.localRows w epsi)).max shared := by
  unfold residual
  refine (Program.returns_reduceAll _ _).bind fun sums _ => ?_
  refine (Program.returns_reduceScalar _ _).bind ?_
  rintro _ rfl
  exact Program.returns_pure ⟨_, rfl⟩

/-- A line search along a direction without a number ends, and leaves none. -/
lemma backtrack_blank (epsi norm : PartialReal) (more : Nat) (step : PartialReal) :
    (a.backtrack wt w (KktPoint.blank n m) epsi norm more step).Returns fun next =>
      next.1 = KktPoint.blank n m := by
  have trial : ∀ step, (a.trial wt w (KktPoint.blank n m) epsi step).Returns fun next =>
      next.1 = KktPoint.blank n m := by
    intro step
    unfold trial
    dsimp only
    rw [stepped_blank]
    exact (residual_returns _ _ _ _).bind fun _ _ => Program.returns_pure rfl
  induction more generalizing step with
  | zero => exact trial step
  | succ more ih =>
    unfold backtrack
    refine (trial step).bind fun next hn => ?_
    dsimp only
    split
    · exact Program.returns_pure hn
    · exact ih _

end Step

lemma interiorStep_unvalued (ha : a.WellPosed) (hw : wt.Valid) (hi : w.Interior a) (hm : 0 < m)
    (hn : a.nGlobal ≤ m) (s : Settings PartialReal) (rounds : Nat) (residual : Residual PartialReal) (epsi : ℝ) :
    (a.unvalued.interiorStep wt.lifted s (.single rounds) w.lifted residual (real epsi)).Returns fun next =>
      next.state = KktPoint.blank n m := by
  unfold interiorStep
  refine (newtonDirection_unvalued ha hw hi hm hn rounds epsi).bind ?_
  rintro _ rfl
  refine (inverseStep_blank _ _).bind fun inverse _ => ?_
  exact (backtrack_blank _ _ _ _ _ _ _).bind fun next hn => Program.returns_pure hn

/-- If the start is not stationary, the first step of the interior-point method loses the whole point. The
method ends all the same. -/
theorem solveInterior_unvalued (ha : a.WellPosed) (hw : wt.Valid) (hm : 0 < m) (hn : a.nGlobal ≤ m)
    {s : Settings PartialReal} (hcap : s.primalDualMaxInner = 1) (hone : s.epsimin < 1)
    (htenth : ¬ s.epsimin < 1 * 0.1) (hstart : 0.9 < (Tally.ofRows (a.localRows (a.interiorStart wt) 1)).max) :
    (a.unvalued.solveInterior wt.lifted s (.single 1)).Returns fun sol => sol.point = KktPoint.blank n m := by
  have hi : (a.interiorStart wt).Interior a := interiorStart_interior ha
  have start : a.unvalued.interiorStart wt.lifted = (a.interiorStart wt).lifted := interiorStart_lifted ha
  have rows : a.unvalued.localRows (a.interiorStart wt).lifted 1 =
      (a.localRows (a.interiorStart wt) 1).map real := localRows_lifted hi ha 1
  have found : (a.unvalued.residual wt.lifted (a.interiorStart wt).lifted 1).Returns fun r => r.Exceeds 1 := by
    refine (residual_returns _ _ _ _).mono fun r hr => ?_
    obtain ⟨shared, hr⟩ := hr
    unfold Residual.Exceeds
    rw [hr, rows, Tally.ofRows_map]
    refine lt_larger (c := 0.9 * 1) ?_ shared
    linarith
  unfold solveInterior
  rw [if_neg hm.ne', start]
  refine Program.Returns.bind (BarrierMethod.solve_first (Q := fun w => w = KktPoint.blank n m) hone htenth found
    fun r hr => ?_) fun out hout => Program.returns_pure hout
  show (BarrierMethod.level _ 1 s.primalDualMaxInner _).Returns _
  rw [hcap]
  unfold BarrierMethod.level
  rw [if_pos hr]
  exact (interiorStep_unvalued ha hw hi hm hn s 1 r 1).bind fun next hnext => Program.returns_pure hnext

section Build

variable {x : Vector ℝ n} {b : Bounds ℝ n} {asy : Asymptotes ℝ n} {limits : MoveLimits ℝ n} {s : Settings ℝ}

/-- Constraints without values lead to such an approximation. -/
lemma build_unvalued {d : Gradients PartialReal n m} (nGlobal : Nat) (ha : asy.Encloses x)
    (hl : limits.Nested asy b x) (hs : s.Valid) (hg : d.g = blank m) :
    (build (lift x) d asy.lifted limits.lifted nGlobal s.lifted).Returns
      (· = (coefficients x d.orZero asy limits nGlobal s).unvalued) := by
  rw [build_lifted d nGlobal ha hl hs]
  refine (Program.returns_reduceAll .sum _).bind ?_
  rintro _ rfl
  have lost : ∀ sums : Vector PartialReal m, Vector.zipWith (· - ·) sums d.g = blank m :=
    fun sums => eq_blank_iff.2 fun i => by rw [entry_zipWith, hg, entry_blank, sub_undefined]
  rw [lost]
  exact Program.returns_pure rfl

end Build

end Approximation

end MovingAsymptotes
