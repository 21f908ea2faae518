import Mathlib
import MovingAsymptotes.InteriorPoint.Direction
import MovingAsymptotes.Proofs.Kkt.Residual
import MovingAsymptotes.Proofs.Linear.Bordered

/-!
# The Newton direction over the reals

At an interior point the diagonals of the linearised conditions are positive. The conditions then have
at most one solution: the terms off the diagonal cancel from the sum of each row times its unknown, and
a sum of squares is left. Either elimination leads to a dense system that inherits this, so both of them
find a direction, and it is the same one.

* `KktPoint.Interior`: the points at which all signed variables are positive.
* `NewtonBlocks.Rows.unique`: the linearised conditions have at most one solution.
* `NewtonBlocks.solveForMultipliers_returns`, `NewtonBlocks.solveForDesign_returns`: both eliminations
  find it.
-/

namespace MovingAsymptotes

variable {n m : Nat}

/-- Points strictly within the move limits at which all other signed variables are positive. -/
structure KktPoint.Interior (a : Approximation ℝ n m) (w : KktPoint ℝ n m) : Prop where
  alfa_lt : ∀ j : Fin n, a.limits.alfa[j] < w.x[j]
  lt_beta : ∀ j : Fin n, w.x[j] < a.limits.beta[j]
  y_pos : ∀ i : Fin m, 0 < w.y[i]
  z_pos : 0 < w.z
  lambda_pos : ∀ i : Fin m, 0 < w.lambda[i]
  xsi_pos : ∀ j : Fin n, 0 < w.xsi[j]
  eta_pos : ∀ j : Fin n, 0 < w.eta[j]
  mu_pos : ∀ i : Fin m, 0 < w.mu[i]
  zet_pos : 0 < w.zet
  s_pos : ∀ i : Fin m, 0 < w.s[i]

namespace NewtonBlocks

/-- The diagonals of the linearised conditions are positive. -/
structure Positive (k : NewtonBlocks ℝ n m) : Prop where
  diagx : ∀ j : Fin n, 0 < k.diagx[j]
  diagy : ∀ i : Fin m, 0 < k.diagy[i]
  diagz : 0 < k.diagz
  diaglamyi : ∀ i : Fin m, 0 < k.diaglamyi[i]

/-- The linearised conditions with `y` eliminated, for given right-hand sides. -/
structure Rows (k : NewtonBlocks ℝ n m) (shares : Vector ℝ m) (dx : Fin n → ℝ) (dlam : Fin m → ℝ) (dz : ℝ)
    (rx : Fin n → ℝ) (rlam : Fin m → ℝ) (rz : ℝ) : Prop where
  design : ∀ j : Fin n, k.diagx[j] * dx j + ∑ i : Fin m, k.gg[i][j] * dlam i = rx j
  constraints : ∀ i : Fin m,
    ∑ j : Fin n, k.gg[i][j] * dx j - k.diaglamyi[i] * dlam i - shares[i] * dz = rlam i
  common : k.diagz * dz - ∑ i : Fin m, shares[i] * dlam i = rz

variable {k : NewtonBlocks ℝ n m} {shares : Vector ℝ m}

section Uniqueness

variable {dx dx' : Fin n → ℝ} {dlam dlam' : Fin m → ℝ} {dz dz' : ℝ} {rx : Fin n → ℝ} {rlam : Fin m → ℝ}
  {rz : ℝ}

/-- Each row times its unknown: the terms off the diagonal cancel. -/
lemma Rows.energy (h : k.Rows shares dx dlam dz rx rlam rz) :
    ∑ j : Fin n, k.diagx[j] * dx j ^ 2 + ∑ i : Fin m, k.diaglamyi[i] * dlam i ^ 2 + k.diagz * dz ^ 2 =
      ∑ j : Fin n, rx j * dx j - ∑ i : Fin m, rlam i * dlam i + rz * dz := by
  have hx : ∑ j : Fin n, rx j * dx j =
      ∑ j : Fin n, k.diagx[j] * dx j ^ 2 + ∑ j : Fin n, ∑ i : Fin m, k.gg[i][j] * dlam i * dx j := by
    rw [← Finset.sum_add_distrib]
    refine Finset.sum_congr rfl fun j _ => ?_
    rw [← h.design j, add_mul, Finset.sum_mul]
    ring
  have hl : ∑ i : Fin m, rlam i * dlam i =
      ∑ i : Fin m, ∑ j : Fin n, k.gg[i][j] * dlam i * dx j -
        ∑ i : Fin m, k.diaglamyi[i] * dlam i ^ 2 - (∑ i : Fin m, shares[i] * dlam i) * dz := by
    rw [Finset.sum_mul, ← Finset.sum_sub_distrib, ← Finset.sum_sub_distrib]
    refine Finset.sum_congr rfl fun i _ => ?_
    have hs : ∑ j : Fin n, k.gg[i][j] * dlam i * dx j = (∑ j : Fin n, k.gg[i][j] * dx j) * dlam i := by
      rw [Finset.sum_mul]
      exact Finset.sum_congr rfl fun j _ => by ring
    rw [← h.constraints i, hs]
    ring
  -- The terms that couple `x` with the multipliers are summed in either order.
  have hc := Finset.sum_comm (s := Finset.univ) (t := Finset.univ)
    (f := fun (i : Fin m) (j : Fin n) => k.gg[i][j] * dlam i * dx j)
  rw [hx, hl, ← h.common, hc]
  ring

/-- Only zero satisfies the homogeneous conditions. -/
lemma Rows.eq_zero (hk : k.Positive) (h : k.Rows shares dx dlam dz (fun _ => 0) (fun _ => 0) 0) :
    dx = 0 ∧ dlam = 0 ∧ dz = 0 := by
  have hx : ∀ j ∈ Finset.univ, (0 : ℝ) ≤ k.diagx[j] * dx j ^ 2 := fun j _ =>
    mul_nonneg (hk.diagx j).le (sq_nonneg _)
  have hl : ∀ i ∈ Finset.univ, (0 : ℝ) ≤ k.diaglamyi[i] * dlam i ^ 2 := fun i _ =>
    mul_nonneg (hk.diaglamyi i).le (sq_nonneg _)
  have hz : 0 ≤ k.diagz * dz ^ 2 := mul_nonneg hk.diagz.le (sq_nonneg _)
  have he := h.energy
  simp only [zero_mul, Finset.sum_const_zero, sub_zero, add_zero] at he
  have hxs := Finset.sum_nonneg hx
  have hls := Finset.sum_nonneg hl
  refine ⟨funext fun j => ?_, funext fun i => ?_, ?_⟩
  · have := (Finset.sum_eq_zero_iff_of_nonneg hx).1 (by linarith) j (Finset.mem_univ j)
    exact (pow_eq_zero_iff two_ne_zero).1 ((mul_eq_zero.1 this).resolve_left (hk.diagx j).ne')
  · have := (Finset.sum_eq_zero_iff_of_nonneg hl).1 (by linarith) i (Finset.mem_univ i)
    exact (pow_eq_zero_iff two_ne_zero).1 ((mul_eq_zero.1 this).resolve_left (hk.diaglamyi i).ne')
  · have : k.diagz * dz ^ 2 = 0 := by linarith
    exact (pow_eq_zero_iff two_ne_zero).1 ((mul_eq_zero.1 this).resolve_left hk.diagz.ne')

/-- The linearised conditions have at most one solution. -/
theorem Rows.unique (hk : k.Positive) (h : k.Rows shares dx dlam dz rx rlam rz)
    (h' : k.Rows shares dx' dlam' dz' rx rlam rz) : dx = dx' ∧ dlam = dlam' ∧ dz = dz' := by
  -- The difference of two solutions satisfies the homogeneous conditions.
  have hd : k.Rows shares (dx - dx') (dlam - dlam') (dz - dz') (fun _ => 0) (fun _ => 0) 0 := by
    constructor
    · intro j
      have h₁ := h.design j
      have h₂ := h'.design j
      simp only [Pi.sub_apply, mul_sub, Finset.sum_sub_distrib]
      linarith
    · intro i
      have h₁ := h.constraints i
      have h₂ := h'.constraints i
      simp only [Pi.sub_apply, mul_sub, Finset.sum_sub_distrib]
      linarith
    · have h₁ := h.common
      have h₂ := h'.common
      simp only [Pi.sub_apply, mul_sub, Finset.sum_sub_distrib]
      linarith
  obtain ⟨hx, hl, hz⟩ := hd.eq_zero hk
  exact ⟨sub_eq_zero.1 hx, sub_eq_zero.1 hl, sub_eq_zero.1 hz⟩

end Uniqueness

/-- A direction that satisfies the linearised conditions. -/
def Solves (k : NewtonBlocks ℝ n m) (shares : Vector ℝ m) (core : CoreDirection ℝ n m) : Prop :=
  k.Rows shares (fun j => core.dx[j]) (fun i => core.dlam[i]) core.dz
    (fun j => -k.delx[j]) (fun i => -k.dellamyi i) (-k.delz)

lemma Solves.unique (hk : k.Positive) {core core' : CoreDirection ℝ n m} (h : k.Solves shares core)
    (h' : k.Solves shares core') : core = core' := by
  obtain ⟨hx, hl, hz⟩ := Rows.unique hk h h'
  cases core
  cases core'
  cases vector_ext (congrFun hx)
  cases vector_ext (congrFun hl)
  cases hz
  rfl

section Multipliers

/-- The dense block that is left once `x` and `y` are eliminated. -/
noncomputable def multiplierBlock (k : NewtonBlocks ℝ n m) : Mat ℝ m m :=
  let spread := k.gg.congruence (k.diagx.map fun d => 1 / d)
  Mat.ofFn fun i l => if i = l then spread[i][l] + k.diaglamyi[i] else spread[i][l]

lemma sum_multiplierBlock (k : NewtonBlocks ℝ n m) (v : Fin m → ℝ) (i : Fin m) :
    ∑ l : Fin m, k.multiplierBlock[i][l] * v l =
      ∑ j : Fin n, k.gg[i][j] * (1 / k.diagx[j]) * (∑ l : Fin m, k.gg[l][j] * v l) +
        k.diaglamyi[i] * v i := by
  have entries : ∀ i l : Fin m, k.multiplierBlock[i][l] =
      (k.gg.congruence (k.diagx.map fun d => 1 / d))[i][l] + if i = l then k.diaglamyi[i] else 0 := by
    intro i l
    unfold multiplierBlock
    rw [Mat.getElem_ofFn]
    split
    · rfl
    · rw [add_zero]
  rw [Mat.sum_add_diagonal entries, Mat.sum_congruence]
  simp only [entry_map]

/-- What solves the dense system solves the linearised conditions, with the design variables from their
own rows. -/
lemma rows_of_multipliers (hk : k.Positive) {dx : Fin n → ℝ} {dlam : Fin m → ℝ} {dz : ℝ} {rx : Fin n → ℝ}
    {rlam : Fin m → ℝ} {rz : ℝ}
    (hx : ∀ j : Fin n, dx j = (rx j - ∑ i : Fin m, k.gg[i][j] * dlam i) * (1 / k.diagx[j]))
    (hl : ∀ i : Fin m, ∑ l : Fin m, k.multiplierBlock[i][l] * dlam l + shares[i] * dz =
      ∑ j : Fin n, k.gg[i][j] * (rx j * (1 / k.diagx[j])) - rlam i)
    (hz : ∑ i : Fin m, shares[i] * dlam i + -k.diagz * dz = -rz) :
    k.Rows shares dx dlam dz rx rlam rz where
  design j := by
    have := (hk.diagx j).ne'
    rw [hx]
    field_simp
    ring
  constraints i := by
    have hs : ∑ j : Fin n, k.gg[i][j] * dx j = ∑ j : Fin n, k.gg[i][j] * (rx j * (1 / k.diagx[j])) -
        ∑ j : Fin n, k.gg[i][j] * (1 / k.diagx[j]) * (∑ l : Fin m, k.gg[l][j] * dlam l) := by
      rw [← Finset.sum_sub_distrib]
      refine Finset.sum_congr rfl fun j _ => ?_
      rw [hx]
      ring
    have h := hl i
    rw [sum_multiplierBlock] at h
    rw [hs]
    linarith
  common := by linarith

lemma multiplierBlock_regular (shares : Vector ℝ m) (hk : k.Positive) :
    Mat.RegularBordered k.multiplierBlock shares (-k.diagz) := by
  intro dlam dz hl hz
  have h : k.Rows shares
      (fun j => (0 - ∑ i : Fin m, k.gg[i][j] * dlam i) * (1 / k.diagx[j])) dlam dz
      (fun _ => 0) (fun _ => 0) 0 := by
    refine rows_of_multipliers hk (fun j => rfl) (fun i => ?_) ?_
    · rw [hl i]
      simp
    · rw [hz, neg_zero]
  exact (h.eq_zero hk).2

/-- The elimination of `x` and `y` finds the direction. -/
theorem solveForMultipliers_returns (shares : Vector ℝ m) (hk : k.Positive) :
    (k.solveForMultipliers shares).Returns (k.Solves shares) := by
  unfold solveForMultipliers
  refine (Program.returns_reduceAll _ _).bind ?_
  rintro _ rfl
  refine (Program.returns_reduceAll _ _).bind ?_
  rintro _ rfl
  rw [Mat.ofEntries_entries]
  obtain ⟨dlam, dz, hd, hs⟩ :=
    (multiplierBlock_regular shares hk).exists_solveBordered?
      (Vector.ofFn fun i => k.dellamyi i -
        (k.gg.mulVec (Vector.zipWith (· * ·) k.delx (k.diagx.map fun d => 1 / d)))[i]) k.delz
  unfold multiplierBlock at hd
  simp only [hd]
  refine Program.returns_pure (rows_of_multipliers hk (fun j => ?_) (fun i => ?_) ?_)
  · simp only [entry_ofFn, entry_map, Mat.entry_mulVec, Mat.entry_transpose]
    ring
  · rw [hs.block i]
    simp only [entry_ofFn, Mat.entry_mulVec, entry_zipWith, entry_map, neg_mul, mul_neg,
      Finset.sum_neg_distrib]
    ring
  · rw [hs.last, neg_neg]

end Multipliers

section Design

/-- The dense block that is left once the multipliers and `y` are eliminated. -/
noncomputable def designBlock (k : NewtonBlocks ℝ n m) : Mat ℝ n n :=
  let spread := k.gg.transpose.congruence (k.diaglamyi.map fun d => 1 / d)
  Mat.ofFn fun j l => if j = l then k.diagx[j] + spread[j][l] else spread[j][l]

lemma sum_designBlock (k : NewtonBlocks ℝ n m) (v : Fin n → ℝ) (j : Fin n) :
    ∑ l : Fin n, k.designBlock[j][l] * v l =
      ∑ i : Fin m, k.gg[i][j] * (1 / k.diaglamyi[i]) * (∑ l : Fin n, k.gg[i][l] * v l) +
        k.diagx[j] * v j := by
  have entries : ∀ j l : Fin n, k.designBlock[j][l] =
      (k.gg.transpose.congruence (k.diaglamyi.map fun d => 1 / d))[j][l] +
        if j = l then k.diagx[j] else 0 := by
    intro j l
    unfold designBlock
    rw [Mat.getElem_ofFn]
    split
    · exact add_comm _ _
    · rw [add_zero]
  rw [Mat.sum_add_diagonal entries, Mat.sum_congruence]
  simp only [entry_map, Mat.entry_transpose]

/-- What solves the dense system solves the linearised conditions, with the multipliers from their own
rows. -/
lemma rows_of_design (hk : k.Positive) {dx : Fin n → ℝ} {dlam : Fin m → ℝ} {dz : ℝ} {rx : Fin n → ℝ}
    {rlam : Fin m → ℝ} {rz : ℝ}
    (hl : ∀ i : Fin m, dlam i =
      (∑ j : Fin n, k.gg[i][j] * dx j - shares[i] * dz - rlam i) * (1 / k.diaglamyi[i]))
    (hx : ∀ j : Fin n, ∑ l : Fin n, k.designBlock[j][l] * dx l -
      (∑ i : Fin m, k.gg[i][j] * (shares[i] * (1 / k.diaglamyi[i]))) * dz =
      rx j + ∑ i : Fin m, k.gg[i][j] * (rlam i * (1 / k.diaglamyi[i])))
    (hz : -(∑ j : Fin n, (∑ i : Fin m, k.gg[i][j] * (shares[i] * (1 / k.diaglamyi[i]))) * dx j) +
      (k.diagz + ∑ i : Fin m, shares[i] * (shares[i] * (1 / k.diaglamyi[i]))) * dz =
      rz - ∑ i : Fin m, shares[i] * (rlam i * (1 / k.diaglamyi[i]))) :
    k.Rows shares dx dlam dz rx rlam rz where
  design j := by
    have hs : ∑ i : Fin m, k.gg[i][j] * dlam i =
        ∑ i : Fin m, k.gg[i][j] * (1 / k.diaglamyi[i]) * (∑ l : Fin n, k.gg[i][l] * dx l) -
          (∑ i : Fin m, k.gg[i][j] * (shares[i] * (1 / k.diaglamyi[i]))) * dz -
          ∑ i : Fin m, k.gg[i][j] * (rlam i * (1 / k.diaglamyi[i])) := by
      rw [Finset.sum_mul, ← Finset.sum_sub_distrib, ← Finset.sum_sub_distrib]
      refine Finset.sum_congr rfl fun i _ => ?_
      rw [hl]
      ring
    have h := hx j
    rw [sum_designBlock] at h
    rw [hs]
    linarith
  constraints i := by
    have := (hk.diaglamyi i).ne'
    rw [hl]
    field_simp
    ring
  common := by
    have hs : ∑ i : Fin m, shares[i] * dlam i =
        ∑ i : Fin m, ∑ j : Fin n, k.gg[i][j] * (shares[i] * (1 / k.diaglamyi[i])) * dx j -
          (∑ i : Fin m, shares[i] * (shares[i] * (1 / k.diaglamyi[i]))) * dz -
          ∑ i : Fin m, shares[i] * (rlam i * (1 / k.diaglamyi[i])) := by
      rw [Finset.sum_mul, ← Finset.sum_sub_distrib, ← Finset.sum_sub_distrib]
      refine Finset.sum_congr rfl fun i _ => ?_
      have hg : ∑ j : Fin n, k.gg[i][j] * (shares[i] * (1 / k.diaglamyi[i])) * dx j =
          shares[i] * (1 / k.diaglamyi[i]) * ∑ j : Fin n, k.gg[i][j] * dx j := by
        rw [Finset.mul_sum]
        exact Finset.sum_congr rfl fun j _ => by ring
      rw [hl, hg]
      ring
    simp only [Finset.sum_mul] at hz
    rw [Finset.sum_comm] at hz
    rw [hs]
    linarith

lemma designBlock_regular (shares : Vector ℝ m) (hk : k.Positive) :
    Mat.RegularBordered k.designBlock
      ((k.gg.transpose.mulVec (Vector.zipWith (· * ·) shares (k.diaglamyi.map fun d => 1 / d))).map (- ·))
      (k.diagz + dot shares (Vector.zipWith (· * ·) shares (k.diaglamyi.map fun d => 1 / d))) := by
  intro dx dz hx hz
  simp only [entry_map, Mat.entry_mulVec, Mat.entry_transpose, entry_zipWith, dot_eq_sum] at hx hz
  have h : k.Rows shares dx
      (fun i => (∑ j : Fin n, k.gg[i][j] * dx j - shares[i] * dz - 0) * (1 / k.diaglamyi[i])) dz
      (fun _ => 0) (fun _ => 0) 0 := by
    refine rows_of_design hk (fun i => rfl) (fun j => ?_) ?_
    · have := hx j
      simp only [zero_mul, mul_zero, Finset.sum_const_zero]
      linarith
    · simp only [zero_mul, mul_zero, Finset.sum_const_zero]
      simp only [neg_mul, Finset.sum_neg_distrib] at hz
      linarith
  exact ⟨(h.eq_zero hk).1, (h.eq_zero hk).2.2⟩

/-- The elimination of the multipliers and `y` finds the direction. -/
theorem solveForDesign_returns (shares : Vector ℝ m) (hk : k.Positive) :
    (k.solveForDesign shares).Returns (k.Solves shares) := by
  unfold solveForDesign
  obtain ⟨dx, dz, hd, hs⟩ :=
    (designBlock_regular shares hk).exists_solveBordered?
      (Vector.ofFn fun j => -(k.delx[j] + (k.gg.transpose.mulVec
        (Vector.ofFn fun i => k.dellamyi i * (k.diaglamyi.map fun d => 1 / d)[i]))[j]))
      (-(k.delz - dot shares (Vector.ofFn fun i => k.dellamyi i * (k.diaglamyi.map fun d => 1 / d)[i])))
  unfold designBlock at hd
  simp only [hd]
  have hb := hs.block
  have hl := hs.last
  simp only [entry_ofFn, entry_map, Mat.entry_mulVec, Mat.entry_transpose, entry_zipWith,
    dot_eq_sum] at hb hl
  refine Program.returns_pure (rows_of_design hk (fun i => ?_) (fun j => ?_) ?_)
  · simp only [entry_ofFn, entry_map, Mat.entry_mulVec, entry_zipWith]
    ring
  · have := hb j
    simp only [neg_mul, mul_neg, Finset.sum_neg_distrib]
    linarith
  · simp only [neg_mul, mul_neg, Finset.sum_neg_distrib] at hl ⊢
    linarith

end Design

/-- Both eliminations find the same direction. -/
theorem eliminations_agree (hk : k.Positive) :
    (k.solveForDesign shares).serial = (k.solveForMultipliers shares).serial := by
  obtain ⟨core, h, hs⟩ := solveForDesign_returns shares hk
  obtain ⟨core', h', hs'⟩ := solveForMultipliers_returns shares hk
  rw [h, h', hs.unique hk hs']

end NewtonBlocks

section Point

variable {a : Approximation ℝ n m} {wt : Weights ℝ m} {w : KktPoint ℝ n m}

namespace KktPoint.Interior

lemma contains (hi : w.Interior a) : a.limits.Contains w.x :=
  fun j => ⟨(hi.alfa_lt j).le, (hi.lt_beta j).le⟩

lemma roomBelow_pos (hi : w.Interior a) (j : Fin n) : 0 < a.limits.roomBelow w.x j :=
  sub_pos.2 (hi.alfa_lt j)

lemma roomAbove_pos (hi : w.Interior a) (j : Fin n) : 0 < a.limits.roomAbove w.x j :=
  sub_pos.2 (hi.lt_beta j)

lemma curvature_nonneg (ha : a.Convex) (hi : w.Interior a) (j : Fin n) :
    0 ≤ a.lagrangianCurvature w.x (a.lagrangian w.lambda) j := by
  have hu := ha.above_pos hi.contains j
  have hb := ha.below_pos hi.contains j
  have hp := ha.plam_nonneg (fun i => (hi.lambda_pos i).le) j
  have hq := ha.qlam_nonneg (fun i => (hi.lambda_pos i).le) j
  have two : (0 : ℝ) ≤ 2.0 := by norm_num
  exact mul_nonneg two (add_nonneg (div_nonneg hp (mul_pos (mul_pos hu hu) hu).le)
    (div_nonneg hq (mul_pos (mul_pos hb hb) hb).le))

end KktPoint.Interior

/-- At an interior point the diagonals are positive. -/
theorem NewtonBlocks.ofPoint_positive (ha : a.Convex) (hd : ∀ i : Fin m, 0 < wt.d[i]) (hi : w.Interior a)
    (epsi : ℝ) (sums : Vector ℝ m) : (ofPoint a wt w epsi sums).Positive := by
  have diagy : ∀ i : Fin m, 0 < (ofPoint a wt w epsi sums).diagy[i] := by
    intro i
    unfold ofPoint
    rw [entry_ofFn]
    exact add_pos (hd i) (div_pos (hi.mu_pos i) (hi.y_pos i))
  refine ⟨fun j => ?_, diagy, div_pos hi.zet_pos hi.z_pos, fun i => ?_⟩
  · unfold ofPoint
    rw [entry_ofFn]
    -- The move limits alone keep the diagonal positive where the terms of a variable vanish.
    exact add_pos (add_pos_of_nonneg_of_pos (hi.curvature_nonneg ha j)
      (div_pos (hi.xsi_pos j) (hi.roomBelow_pos j))) (div_pos (hi.eta_pos j) (hi.roomAbove_pos j))
  · have h := one_div_pos.2 (diagy i)
    unfold ofPoint at h ⊢
    rw [entry_ofFn]
    exact add_pos (div_pos (hi.s_pos i) (hi.lambda_pos i)) h

/-- At an interior point there is a Newton direction, whichever elimination is taken. -/
theorem Approximation.newtonDirection_returns (ha : a.Convex) (hd : ∀ i : Fin m, 0 < wt.d[i])
    (hi : w.Interior a) (e : Execution) (epsi : ℝ) : (a.newtonDirection wt e w epsi).Returns fun dir =>
      ∃ core, (NewtonBlocks.ofPoint a wt w epsi (a.localSums w.x)).Solves wt.a core ∧
        dir = (NewtonBlocks.ofPoint a wt w epsi (a.localSums w.x)).complete a w epsi core := by
  have hk := NewtonBlocks.ofPoint_positive ha hd hi epsi (a.localSums w.x)
  unfold newtonDirection
  refine (Program.returns_reduceAll _ _).bind ?_
  rintro _ rfl
  dsimp only
  split
  · exact (NewtonBlocks.solveForMultipliers_returns wt.a hk).bind fun core hc =>
      Program.returns_pure ⟨core, hc, rfl⟩
  · exact (NewtonBlocks.solveForDesign_returns wt.a hk).bind fun core hc =>
      Program.returns_pure ⟨core, hc, rfl⟩

end Point

end MovingAsymptotes
