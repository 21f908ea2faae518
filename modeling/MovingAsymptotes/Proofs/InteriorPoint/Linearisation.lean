import MovingAsymptotes.Proofs.Distributed.InteriorPoint
import MovingAsymptotes.Proofs.Kkt.Conditions

/-!
# The Newton direction and the linearised conditions

A direction satisfies the conditions of the subproblem to first order if along it every row of the
residual falls at the rate of its own value. The derivatives of the rows are those of poles, products and
sums. Complementarity and stationarity in `y` then determine all groups of the direction but the design,
the multipliers of the constraints and `z`, and for these the conditions are those of the blocks. So
there is exactly one such direction, and it is the one that either elimination leads to.

* `Approximation.Linearised`: the directions that satisfy the conditions to first order.
* `Approximation.linearised_iff_solves`: the conditions come down to the blocks.
* `Approximation.newtonDirection_linearised`: the Newton direction is the only one, on every rank of
  every group.
-/

namespace MovingAsymptotes

variable {n m : Nat}

namespace Approximation

section Rows

variable (a : Approximation ℝ n m) (wt : Weights ℝ m) (w dir : KktPoint ℝ n m) (epsi : ℝ)

/-- The direction satisfies the conditions to first order: along it every row falls at the rate of its
own value. -/
def Linearised : Prop :=
  ∀ k, HasDerivAt (fun t => (a.rows wt (w.stepped dir t) epsi).getD k 0)
    (-(a.rows wt w epsi).getD k 0) 0

/-- The rate at which a row grows along a direction. -/
noncomputable def rowSlope : Condition n m → ℝ
  | .stationary j => a.lagrangianCurvature w.x (a.lagrangian w.lambda) j * dir.x[j] +
      ∑ i : Fin m, a.slopeAt w.x i j * dir.lambda[i] - dir.xsi[j] + dir.eta[j]
  | .lowerSide j => dir.xsi[j] * a.limits.roomBelow w.x j + w.xsi[j] * dir.x[j]
  | .upperSide j => dir.eta[j] * a.limits.roomAbove w.x j + w.eta[j] * -dir.x[j]
  | .artificial i => wt.d[i] * dir.y[i] - dir.mu[i] - dir.lambda[i]
  | .common => -dir.zet - ∑ i : Fin m, wt.a[i] * dir.lambda[i]
  | .feasible i =>
      ∑ j : Fin n, a.slopeAt w.x i j * dir.x[j] - wt.a[i] * dir.z - dir.y[i] + dir.s[i]
  | .artificialSign i => dir.mu[i] * w.y[i] + w.mu[i] * dir.y[i]
  | .commonSign => dir.zet * w.z + w.zet * dir.z
  | .slack i => dir.s[i] * w.lambda[i] + w.s[i] * dir.lambda[i]

end Rows

end Approximation

section Derivatives

open KktPoint

section Poles

variable {c v : ℝ → ℝ} {c' v' : ℝ}

lemma hasDerivAt_pole (hv : HasDerivAt v v' 0) (h : v 0 ≠ 0) :
    HasDerivAt (fun t => 1 / v t) (-v' / (v 0 * v 0)) 0 := by
  refine ((hasDerivAt_const (0 : ℝ) (1 : ℝ)).fun_div hv h).congr_deriv ?_
  field_simp
  ring

lemma hasDerivAt_pole_sq (hc : HasDerivAt c c' 0) (hv : HasDerivAt v v' 0) (h : v 0 ≠ 0) :
    HasDerivAt (fun t => c t / (v t * v t))
      (c' / (v 0 * v 0) - 2 * c 0 * v' / (v 0 * v 0 * v 0)) 0 := by
  refine (hc.fun_div (hv.fun_mul hv) (mul_ne_zero h h)).congr_deriv ?_
  field_simp
  ring

end Poles

lemma along_zero {k : Nat} (u v : Vector ℝ k) : along u v 0 = u := by
  refine vector_ext fun j => ?_
  unfold along
  rw [entry_zipWith, mul_zero, add_zero]

lemma hasDerivAt_step (u v : ℝ) : HasDerivAt (fun t => u + v * t) v 0 :=
  (((hasDerivAt_id' (0 : ℝ)).const_mul v).const_add u).congr_deriv (mul_one v)

lemma hasDerivAt_along {k : Nat} (u v : Vector ℝ k) (j : Fin k) :
    HasDerivAt (fun t => (along u v t)[j]) v[j] 0 := by
  have entries : (fun t => (along u v t)[j]) = fun t => u[j] + v[j] * t :=
    funext fun t => entry_zipWith _ u v j
  rw [entries]
  exact hasDerivAt_step u[j] v[j]

variable {a : Approximation ℝ n m} {wt : Weights ℝ m} {w : KktPoint ℝ n m}

namespace Approximation

variable {x : Vector ℝ n} {lambda : Vector ℝ m} (dx : Vector ℝ n) (dlambda : Vector ℝ m)

lemma hasDerivAt_above (a : Approximation ℝ n m) (x dx : Vector ℝ n) (j : Fin n) :
    HasDerivAt (fun t => a.asymptotes.above (along x dx t) j) (-dx[j]) 0 :=
  (hasDerivAt_along x dx j).const_sub _

lemma hasDerivAt_below (a : Approximation ℝ n m) (x dx : Vector ℝ n) (j : Fin n) :
    HasDerivAt (fun t => a.asymptotes.below (along x dx t) j) dx[j] 0 :=
  (hasDerivAt_along x dx j).sub_const _

lemma Convex.poles_start (ha : a.Convex) (hx : a.limits.Contains x) (j : Fin n) :
    a.asymptotes.above (along x dx 0) j ≠ 0 ∧ a.asymptotes.below (along x dx 0) j ≠ 0 := by
  rw [along_zero]
  exact ⟨(ha.above_pos hx j).ne', (ha.below_pos hx j).ne'⟩

lemma hasDerivAt_localSums (ha : a.Convex) (hx : a.limits.Contains x) (i : Fin m) :
    HasDerivAt (fun t => (a.localSums (along x dx t))[i]) (∑ j : Fin n, a.slopeAt x i j * dx[j]) 0 := by
  simp only [entry_localSums]
  refine HasDerivAt.fun_sum fun j _ => ?_
  obtain ⟨above, below⟩ := ha.poles_start dx hx j
  have hp := (hasDerivAt_pole (a.hasDerivAt_above x dx j) above).const_mul a.p[j][i]
  have hq := (hasDerivAt_pole (a.hasDerivAt_below x dx j) below).const_mul a.q[j][i]
  refine (hp.fun_add hq).congr_deriv ?_
  rw [along_zero]
  unfold slopeAt
  ring

lemma hasDerivAt_gradient (ha : a.Convex) (hx : a.limits.Contains x) (j : Fin n) :
    HasDerivAt
      (fun t => (a.lagrangianGradient (along x dx t) (a.lagrangian (along lambda dlambda t)))[j])
      (a.lagrangianCurvature x (a.lagrangian lambda) j * dx[j] +
        ∑ i : Fin m, a.slopeAt x i j * dlambda[i]) 0 := by
  obtain ⟨above, below⟩ := ha.poles_start dx hx j
  have hp : HasDerivAt (fun t => (a.lagrangian (along lambda dlambda t)).plam[j])
      (∑ i : Fin m, a.p[j][i] * dlambda[i]) 0 := by
    simp only [entry_plam]
    exact (HasDerivAt.fun_sum fun i _ => (hasDerivAt_along lambda dlambda i).const_mul _).const_add _
  have hq : HasDerivAt (fun t => (a.lagrangian (along lambda dlambda t)).qlam[j])
      (∑ i : Fin m, a.q[j][i] * dlambda[i]) 0 := by
    simp only [entry_qlam]
    exact (HasDerivAt.fun_sum fun i _ => (hasDerivAt_along lambda dlambda i).const_mul _).const_add _
  have slopes : ∑ i : Fin m, a.slopeAt x i j * dlambda[i] =
      (∑ i : Fin m, a.p[j][i] * dlambda[i]) / (a.asymptotes.above x j * a.asymptotes.above x j) -
        (∑ i : Fin m, a.q[j][i] * dlambda[i]) / (a.asymptotes.below x j * a.asymptotes.below x j) := by
    unfold slopeAt
    simp only [sub_mul, Finset.sum_sub_distrib, Finset.sum_div, div_mul_eq_mul_div]
  have two : (2.0 : ℝ) = 2 := by norm_num
  simp only [entry_lagrangianGradient]
  refine ((hasDerivAt_pole_sq hp (a.hasDerivAt_above x dx j) above).fun_sub
    (hasDerivAt_pole_sq hq (a.hasDerivAt_below x dx j) below)).congr_deriv ?_
  rw [slopes]
  simp only [along_zero]
  unfold lagrangianCurvature
  rw [two]
  ring

/-- The slope of every row is the one that is named for it. -/
lemma hasDerivAt_row (ha : a.Convex) (hx : a.limits.Contains w.x) (dir : KktPoint ℝ n m) (epsi : ℝ)
    (q : Condition n m) :
    HasDerivAt (fun t => a.row wt (w.stepped dir t) epsi q) (a.rowSlope wt w dir q) 0 := by
  cases q with
  | stationary j =>
    exact ((hasDerivAt_gradient dir.x dir.lambda ha hx j).fun_sub (hasDerivAt_along w.xsi dir.xsi j)).fun_add
      (hasDerivAt_along w.eta dir.eta j)
  | lowerSide j =>
    have h := ((hasDerivAt_along w.xsi dir.xsi j).fun_mul
      ((hasDerivAt_along w.x dir.x j).sub_const a.limits.alfa[j])).sub_const epsi
    refine h.congr_deriv ?_
    rw [along_zero, along_zero]
    rfl
  | upperSide j =>
    have h := ((hasDerivAt_along w.eta dir.eta j).fun_mul
      ((hasDerivAt_along w.x dir.x j).const_sub a.limits.beta[j])).sub_const epsi
    refine h.congr_deriv ?_
    rw [along_zero, along_zero]
    rfl
  | artificial i =>
    have h := (((hasDerivAt_along w.y dir.y i).const_mul wt.d[i]).const_add wt.c[i]).fun_sub
      (hasDerivAt_along w.mu dir.mu i)
    exact h.fun_sub (hasDerivAt_along w.lambda dir.lambda i)
  | common =>
    have multipliers : HasDerivAt (fun t => dot wt.a (along w.lambda dir.lambda t))
        (∑ i : Fin m, wt.a[i] * dir.lambda[i]) 0 := by
      simp only [dot_eq_sum]
      exact HasDerivAt.fun_sum fun i _ => (hasDerivAt_along w.lambda dir.lambda i).const_mul _
    exact ((hasDerivAt_step w.zet dir.zet).const_sub wt.a0).fun_sub multipliers
  | feasible i =>
    have entries : (fun t => a.row wt (w.stepped dir t) epsi (.feasible i)) = fun t =>
        (a.localSums (along w.x dir.x t))[i] - wt.a[i] * (w.z + dir.z * t) - (along w.y dir.y t)[i] +
          (along w.s dir.s t)[i] - a.b[i] := funext fun t => entry_ofFn _ i
    rw [entries]
    have h := ((hasDerivAt_localSums dir.x ha hx i).fun_sub
      ((hasDerivAt_step w.z dir.z).const_mul wt.a[i])).fun_sub (hasDerivAt_along w.y dir.y i)
    exact (h.fun_add (hasDerivAt_along w.s dir.s i)).sub_const _
  | artificialSign i =>
    have h := ((hasDerivAt_along w.mu dir.mu i).fun_mul (hasDerivAt_along w.y dir.y i)).sub_const epsi
    refine h.congr_deriv ?_
    rw [along_zero, along_zero]
    rfl
  | commonSign =>
    have h := ((hasDerivAt_step w.zet dir.zet).fun_mul (hasDerivAt_step w.z dir.z)).sub_const epsi
    refine h.congr_deriv ?_
    simp only [mul_zero, add_zero]
    rfl
  | slack i =>
    have h := ((hasDerivAt_along w.lambda dir.lambda i).fun_mul (hasDerivAt_along w.s dir.s i)).sub_const epsi
    refine h.congr_deriv ?_
    rw [along_zero, along_zero]
    unfold rowSlope
    ring

/-- Conditions to first order, by name. -/
theorem linearised_iff_rowSlope (ha : a.Convex) (hx : a.limits.Contains w.x) {dir : KktPoint ℝ n m}
    {epsi : ℝ} : a.Linearised wt w dir epsi ↔ ∀ q, a.rowSlope wt w dir q = -a.row wt w epsi q := by
  unfold Linearised
  simp only [rows_eq_map, List.getD_eq_getElem?_getD, List.getElem?_map]
  constructor
  · intro h q
    obtain ⟨k, hk⟩ := List.mem_iff_getElem?.1 q.mem_all
    have hq := h k
    simp only [hk, Option.map_some, Option.getD_some] at hq
    exact (hasDerivAt_row ha hx dir epsi q).unique hq
  · intro h k
    cases hk : (Condition.all n m)[k]? with
    | none =>
      simp only [Option.map_none, Option.getD_none, neg_zero]
      exact hasDerivAt_const _ _
    | some q =>
      simp only [Option.map_some, Option.getD_some]
      rw [← h q]
      exact hasDerivAt_row ha hx dir epsi q

end Approximation

end Derivatives

section Elimination

section Rows

variable {v v' r r' e : ℝ}

/-- A product condition to first order gives the change of one factor in terms of the other. -/
lemma complementarity_iff (hr : r ≠ 0) :
    v' * r + v * r' = -(v * r - e) ↔ v' = -v + e / r - v * r' / r := by
  have common : -v + e / r - v * r' / r = (-v * r + e - v * r') / r := by field_simp
  rw [common, eq_div_iff hr]
  constructor <;> intro h <;> linarith

/-- Stationarity in an artificial variable, with its multiplier from complementarity. -/
lemma artificial_iff {c d y mu l dy dmu dl : ℝ} (hd : d + mu / y ≠ 0)
    (hmu : dmu = -mu + e / y - mu * dy / y) :
    d * dy - dmu - dl = -(c + d * y - mu - l) ↔ dy = (dl - (c + d * y - l - e / y)) / (d + mu / y) := by
  have share : dy * (d + mu / y) = d * dy + mu * dy / y := by ring
  rw [eq_div_iff hd, hmu, share]
  constructor <;> intro h <;> linarith

/-- Stationarity in a design variable, with the multipliers of its limits from complementarity. -/
lemma design_iff {curvature dx sum g xsi eta dxsi deta below above : ℝ}
    (hxsi : dxsi = -xsi + e / below - xsi * dx / below) (heta : deta = -eta + e / above + eta * dx / above) :
    curvature * dx + sum - dxsi + deta = -(g - xsi + eta) ↔
      (curvature + xsi / below + eta / above) * dx + sum = -(g - e / below + e / above) := by
  have share : (curvature + xsi / below + eta / above) * dx =
      curvature * dx + xsi * dx / below + eta * dx / above := by ring
  rw [hxsi, heta, share]
  constructor <;> intro h <;> linarith

/-- A constraint, with its artificial variable and its slack from the other conditions. -/
lemma constraint_iff {sum ai z dz y dy f b l dl s ds dely diagy : ℝ} (hy : dy = (dl - dely) / diagy)
    (hs : ds = -s + e / l - s * dl / l) :
    sum - ai * dz - dy + ds = -(f - ai * z - y + s - b) ↔
      sum - (s / l + 1 / diagy) * dl - ai * dz = -(f - ai * z - y - b + e / l + dely / diagy) := by
  have share : (s / l + 1 / diagy) * dl = s * dl / l + dl / diagy := by ring
  rw [hy, hs, share, sub_div]
  constructor <;> intro h <;> linarith

/-- Stationarity in `z`, with its multiplier from complementarity. -/
lemma common_iff {a0 zet dzet z dz sum total : ℝ} (hzet : dzet = -zet + e / z - zet * dz / z) :
    -dzet - sum = -(a0 - zet - total) ↔ zet / z * dz - sum = -(a0 - total - e / z) := by
  have share : zet / z * dz = zet * dz / z := by ring
  rw [hzet, share]
  constructor <;> intro h <;> linarith

end Rows

variable {a : Approximation ℝ n m} {wt : Weights ℝ m} {w dir : KktPoint ℝ n m} {epsi : ℝ}

namespace NewtonBlocks

/-- The groups of a direction that follow from the others by back-substitution. -/
structure Completes (k : NewtonBlocks ℝ n m) (a : Approximation ℝ n m) (w : KktPoint ℝ n m) (epsi : ℝ)
    (dir : KktPoint ℝ n m) : Prop where
  y : ∀ i : Fin m, dir.y[i] = (dir.lambda[i] - k.dely[i]) / k.diagy[i]
  xsi : ∀ j : Fin n, dir.xsi[j] = -w.xsi[j] + epsi / a.limits.roomBelow w.x j -
    w.xsi[j] * dir.x[j] / a.limits.roomBelow w.x j
  eta : ∀ j : Fin n, dir.eta[j] = -w.eta[j] + epsi / a.limits.roomAbove w.x j +
    w.eta[j] * dir.x[j] / a.limits.roomAbove w.x j
  mu : ∀ i : Fin m, dir.mu[i] = -w.mu[i] + epsi / w.y[i] - w.mu[i] * dir.y[i] / w.y[i]
  zet : dir.zet = -w.zet + epsi / w.z - w.zet * dir.z / w.z
  s : ∀ i : Fin m, dir.s[i] = -w.s[i] + epsi / w.lambda[i] - w.s[i] * dir.lambda[i] / w.lambda[i]

lemma completes_complete (k : NewtonBlocks ℝ n m) (a : Approximation ℝ n m) (w : KktPoint ℝ n m) (epsi : ℝ)
    (core : CoreDirection ℝ n m) : k.Completes a w epsi (k.complete a w epsi core) where
  y i := entry_ofFn _ i
  xsi j := entry_ofFn _ j
  eta j := entry_ofFn _ j
  mu i := entry_ofFn _ i
  zet := rfl
  s i := entry_ofFn _ i

lemma Completes.eq_complete {k : NewtonBlocks ℝ n m} (h : k.Completes a w epsi dir) :
    dir = k.complete a w epsi ⟨dir.x, dir.lambda, dir.z⟩ := by
  have h' := k.completes_complete a w epsi ⟨dir.x, dir.lambda, dir.z⟩
  have y : dir.y = (k.complete a w epsi ⟨dir.x, dir.lambda, dir.z⟩).y :=
    vector_ext fun i => (h.y i).trans (h'.y i).symm
  have xsi := vector_ext fun j => (h.xsi j).trans (h'.xsi j).symm
  have eta := vector_ext fun j => (h.eta j).trans (h'.eta j).symm
  have mu : dir.mu = (k.complete a w epsi ⟨dir.x, dir.lambda, dir.z⟩).mu :=
    vector_ext fun i => by rw [h.mu, h'.mu, ← y]
  have s := vector_ext fun i => (h.s i).trans (h'.s i).symm
  calc dir = ⟨dir.x, dir.y, dir.z, dir.lambda, dir.xsi, dir.eta, dir.mu, dir.zet, dir.s⟩ := rfl
    _ = k.complete a w epsi ⟨dir.x, dir.lambda, dir.z⟩ := by
        rw [y, xsi, eta, mu, h.zet, s]
        rfl

end NewtonBlocks

namespace Approximation

/-- The rows of the blocks are those of stationarity in `x` and `z` and those of the constraints, once the
other groups have been substituted. -/
lemma solves_iff_rowSlope
    (hc : (NewtonBlocks.ofPoint a wt w epsi (a.localSums w.x)).Completes a w epsi dir) :
    (NewtonBlocks.ofPoint a wt w epsi (a.localSums w.x)).Solves wt.a ⟨dir.x, dir.lambda, dir.z⟩ ↔
      (∀ j, a.rowSlope wt w dir (.stationary j) = -a.row wt w epsi (.stationary j)) ∧
      (∀ i, a.rowSlope wt w dir (.feasible i) = -a.row wt w epsi (.feasible i)) ∧
      a.rowSlope wt w dir .common = -a.row wt w epsi .common := by
  let k := NewtonBlocks.ofPoint a wt w epsi (a.localSums w.x)
  have gg (i : Fin m) (j : Fin n) : k.gg[i][j] = a.slopeAt w.x i j := Mat.getElem_ofFn _ i j
  have design (j : Fin n) : a.rowSlope wt w dir (.stationary j) = -a.row wt w epsi (.stationary j) ↔
      k.diagx[j] * dir.x[j] + ∑ i : Fin m, k.gg[i][j] * dir.lambda[i] = -k.delx[j] := by
    have diagx : k.diagx[j] = _ := entry_ofFn _ j
    have delx : k.delx[j] = _ := entry_ofFn _ j
    simp only [gg]
    rw [diagx, delx]
    exact design_iff (hc.xsi j) (hc.eta j)
  have constraints (i : Fin m) : a.rowSlope wt w dir (.feasible i) = -a.row wt w epsi (.feasible i) ↔
      ∑ j : Fin n, k.gg[i][j] * dir.x[j] - k.diaglamyi[i] * dir.lambda[i] - wt.a[i] * dir.z =
        -k.dellamyi i := by
    have diaglamyi : k.diaglamyi[i] = w.s[i] / w.lambda[i] + 1 / k.diagy[i] := entry_ofFn _ i
    have dellam : k.dellam[i] = _ := entry_ofFn _ i
    have row : a.row wt w epsi (.feasible i) = _ := entry_ofFn _ i
    simp only [gg]
    rw [diaglamyi, NewtonBlocks.dellamyi, dellam, row]
    exact constraint_iff (hc.y i) (hc.s i)
  have common : a.rowSlope wt w dir .common = -a.row wt w epsi .common ↔
      k.diagz * dir.z - ∑ i : Fin m, wt.a[i] * dir.lambda[i] = -k.delz := common_iff hc.zet
  rw [common]
  simp only [design, constraints]
  exact ⟨fun h => ⟨h.design, h.constraints, h.common⟩, fun h => ⟨h.1, h.2.1, h.2.2⟩⟩

/-- The other rows are the substitutions. -/
lemma completes_iff_rowSlope (hk : (NewtonBlocks.ofPoint a wt w epsi (a.localSums w.x)).Positive)
    (hi : w.Interior a) :
    (NewtonBlocks.ofPoint a wt w epsi (a.localSums w.x)).Completes a w epsi dir ↔
      (∀ i, a.rowSlope wt w dir (.artificial i) = -a.row wt w epsi (.artificial i)) ∧
      (∀ j, a.rowSlope wt w dir (.lowerSide j) = -a.row wt w epsi (.lowerSide j)) ∧
      (∀ j, a.rowSlope wt w dir (.upperSide j) = -a.row wt w epsi (.upperSide j)) ∧
      (∀ i, a.rowSlope wt w dir (.artificialSign i) = -a.row wt w epsi (.artificialSign i)) ∧
      a.rowSlope wt w dir .commonSign = -a.row wt w epsi .commonSign ∧
      ∀ i, a.rowSlope wt w dir (.slack i) = -a.row wt w epsi (.slack i) := by
  let k := NewtonBlocks.ofPoint a wt w epsi (a.localSums w.x)
  have lower (j : Fin n) : a.rowSlope wt w dir (.lowerSide j) = -a.row wt w epsi (.lowerSide j) ↔
      dir.xsi[j] = -w.xsi[j] + epsi / a.limits.roomBelow w.x j -
        w.xsi[j] * dir.x[j] / a.limits.roomBelow w.x j :=
    complementarity_iff (hi.roomBelow_pos j).ne'
  have upper (j : Fin n) : a.rowSlope wt w dir (.upperSide j) = -a.row wt w epsi (.upperSide j) ↔
      dir.eta[j] = -w.eta[j] + epsi / a.limits.roomAbove w.x j +
        w.eta[j] * dir.x[j] / a.limits.roomAbove w.x j := by
    rw [← sub_neg_eq_add, ← neg_div, ← mul_neg]
    exact complementarity_iff (hi.roomAbove_pos j).ne'
  have sign (i : Fin m) : a.rowSlope wt w dir (.artificialSign i) = -a.row wt w epsi (.artificialSign i) ↔
      dir.mu[i] = -w.mu[i] + epsi / w.y[i] - w.mu[i] * dir.y[i] / w.y[i] :=
    complementarity_iff (hi.y_pos i).ne'
  have common : a.rowSlope wt w dir .commonSign = -a.row wt w epsi .commonSign ↔
      dir.zet = -w.zet + epsi / w.z - w.zet * dir.z / w.z :=
    complementarity_iff hi.z_pos.ne'
  have slack (i : Fin m) : a.rowSlope wt w dir (.slack i) = -a.row wt w epsi (.slack i) ↔
      dir.s[i] = -w.s[i] + epsi / w.lambda[i] - w.s[i] * dir.lambda[i] / w.lambda[i] := by
    have row : a.row wt w epsi (.slack i) = w.s[i] * w.lambda[i] - epsi :=
      congrArg (· - epsi) (mul_comm _ _)
    rw [row]
    exact complementarity_iff (hi.lambda_pos i).ne'
  have diagy (i : Fin m) : k.diagy[i] = wt.d[i] + w.mu[i] / w.y[i] := entry_ofFn _ i
  have artificial (i : Fin m)
      (hmu : dir.mu[i] = -w.mu[i] + epsi / w.y[i] - w.mu[i] * dir.y[i] / w.y[i]) :
      a.rowSlope wt w dir (.artificial i) = -a.row wt w epsi (.artificial i) ↔
        dir.y[i] = (dir.lambda[i] - k.dely[i]) / k.diagy[i] := by
    have dely : k.dely[i] = _ := entry_ofFn _ i
    rw [dely, diagy]
    exact artificial_iff (diagy i ▸ (hk.diagy i).ne') hmu
  constructor
  · intro h
    exact ⟨fun i => (artificial i (h.mu i)).2 (h.y i), fun j => (lower j).2 (h.xsi j),
      fun j => (upper j).2 (h.eta j), fun i => (sign i).2 (h.mu i), common.2 h.zet,
      fun i => (slack i).2 (h.s i)⟩
  · rintro ⟨hy, hxsi, heta, hmu, hzet, hs⟩
    have mu (i : Fin m) := (sign i).1 (hmu i)
    exact
      { y := fun i => (artificial i (mu i)).1 (hy i)
        xsi := fun j => (lower j).1 (hxsi j)
        eta := fun j => (upper j).1 (heta j)
        mu
        zet := common.1 hzet
        s := fun i => (slack i).1 (hs i) }

/-- The conditions to first order come down to the blocks, and back-substitution gives the rest of the
direction. -/
theorem linearised_iff_solves (ha : a.Convex) (hd : ∀ i : Fin m, 0 < wt.d[i]) (hi : w.Interior a) :
    a.Linearised wt w dir epsi ↔
      ∃ core, (NewtonBlocks.ofPoint a wt w epsi (a.localSums w.x)).Solves wt.a core ∧
        dir = (NewtonBlocks.ofPoint a wt w epsi (a.localSums w.x)).complete a w epsi core := by
  have hk := NewtonBlocks.ofPoint_positive ha hd hi epsi (a.localSums w.x)
  rw [linearised_iff_rowSlope ha hi.contains]
  constructor
  · intro h
    have completes : (NewtonBlocks.ofPoint a wt w epsi (a.localSums w.x)).Completes a w epsi dir :=
      (completes_iff_rowSlope hk hi).2
        ⟨fun _ => h _, fun _ => h _, fun _ => h _, fun _ => h _, h _, fun _ => h _⟩
    exact ⟨_, (solves_iff_rowSlope completes).2 ⟨fun _ => h _, fun _ => h _, h _⟩, completes.eq_complete⟩
  · rintro ⟨core, hcore, rfl⟩ q
    have completes := (NewtonBlocks.ofPoint a wt w epsi (a.localSums w.x)).completes_complete a w epsi core
    obtain ⟨stationary, feasible, common⟩ := (solves_iff_rowSlope completes).1 hcore
    obtain ⟨artificial, lower, upper, sign, commonSign, slack⟩ := (completes_iff_rowSlope hk hi).1 completes
    cases q with
    | stationary j => exact stationary j
    | lowerSide j => exact lower j
    | upperSide j => exact upper j
    | artificial i => exact artificial i
    | common => exact common
    | feasible i => exact feasible i
    | artificialSign i => exact sign i
    | commonSign => exact commonSign
    | slack i => exact slack i

/-- The Newton direction is the only one that satisfies all conditions to first order. The ranks of every
group find their parts of it, and so do both eliminations. -/
theorem newtonDirection_linearised (ha : a.Convex) (hd : ∀ i : Fin m, 0 < wt.d[i]) (hi : w.Interior a)
    (epsi : ℝ) :
    ∃ dir : KktPoint ℝ n m,
      (∀ dir', a.Linearised wt w dir' epsi ↔ dir' = dir) ∧
      (∀ e, (a.newtonDirection wt e w epsi).serial = .done dir) ∧
      (∀ (R : Nat) (δ : Distribution n R) (rounds : Nat),
        Program.outcomes (fun r => (a.part (δ.place r)).newtonDirection wt { ranks := R + 1, rounds }
            (w.part (δ.place r)) epsi) =
          some (List.ofFn fun r => .done ⟨r, dir.part (δ.place r)⟩)) ∧
      let blocks := NewtonBlocks.ofPoint a wt w epsi (a.localSums w.x)
      let core : CoreDirection ℝ n m := ⟨dir.x, dir.lambda, dir.z⟩
      (blocks.solveForDesign wt.a).serial = .done core ∧
        ∀ (R : Nat) (δ : Distribution n R),
          Program.outcomes (fun r => (blocks.part (δ.place r)).solveForMultipliers wt.a) =
            some (List.ofFn fun r => .done ⟨r, core.part (δ.place r)⟩) := by
  have hk := NewtonBlocks.ofPoint_positive ha hd hi epsi (a.localSums w.x)
  obtain ⟨core, hdesign, hcore⟩ := NewtonBlocks.solveForDesign_returns wt.a hk
  let dir := (NewtonBlocks.ofPoint a wt w epsi (a.localSums w.x)).complete a w epsi core
  have serial : ∀ e, (a.newtonDirection wt e w epsi).serial = .done dir := by
    intro e
    obtain ⟨_, hserial, core', hcore', rfl⟩ := newtonDirection_returns ha hd hi e epsi
    rw [hserial, hcore'.unique hk hcore]
  refine ⟨dir, fun dir' => ?unique, serial, fun R δ rounds => ?group, hdesign, fun R δ => ?multipliers⟩
  case unique =>
    rw [linearised_iff_solves ha hd hi]
    constructor
    · rintro ⟨core', hcore', rfl⟩
      rw [hcore'.unique hk hcore]
    · rintro rfl
      exact ⟨core, hcore, rfl⟩
  case group =>
    obtain ⟨c, houtcomes, hc⟩ :=
      (simulates_newtonDirection δ ha hd hi rounds epsi).outcomes_eq (serial (.single rounds))
    rw [houtcomes, funext hc]
  case multipliers =>
    rw [NewtonBlocks.eliminations_agree hk] at hdesign
    obtain ⟨c, houtcomes, hc⟩ := (NewtonBlocks.simulates_solveForMultipliers δ _ wt.a).outcomes_eq hdesign
    rw [houtcomes, funext hc]
    rfl

/-- The direction at the start of a solve of the sample, on a single rank and on two ranks one of which has
no variable. -/
theorem sample_newtonDirection :
    let w := (sample 1).interiorStart sampleWeights
    ∃ dir : KktPoint ℝ 1 1,
      (∀ dir', (sample 1).Linearised sampleWeights w dir' 1 ↔ dir' = dir) ∧
      ((sample 1).newtonDirection sampleWeights (.single 0) w 1).serial = .done dir ∧
      ∃ δ : Distribution 1 1, δ.size = ![1, 0] ∧
        Program.outcomes (fun r => ((sample 1).part (δ.place r)).newtonDirection sampleWeights
            { ranks := 2, rounds := 0 } (w.part (δ.place r)) 1) =
          some (List.ofFn fun r => .done ⟨r, dir.part (δ.place r)⟩) := by
  have ha := sample_wellPosed 1
  have hd := (WeightDraft.validate_eq_ok_iff.1 sampleWeights_validate).2.d_pos
  obtain ⟨dir, unique, serial, group, -⟩ :=
    newtonDirection_linearised (w := (sample 1).interiorStart sampleWeights) ha.convex hd
      (interiorStart_interior ha) 1
  exact ⟨dir, unique, serial _, ⟨![1, 0], finSigmaFinEquiv.trans (finCongr (by decide))⟩, rfl, group _ _ _⟩

end Approximation

end Elimination

end MovingAsymptotes
