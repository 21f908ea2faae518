import MovingAsymptotes.Proofs.Kkt.Optimality

/-!
# The conditions as one vector

A residual is computed from two lists of rows, those of the variables of a rank and those that all ranks
share. Here the optimality conditions are named one by one and stacked into one vector, for the subproblem
and for the problem itself alike: the two differ in the slopes of the Lagrangian, in the box around the
design, in the values of the constraints, and in the relaxation. The rows are the entries of that vector,
each of them once, so a residual is made up of its Euclidean norm and its largest absolute value.

* `Condition`: the conditions of a problem, of which there are `3 * N + 4 * m + 2`.
* `KktPoint.conditions`: what a point makes of each of them.
* `Approximation.row_eq_conditions`, `Gradients.rows_eq_map`: the rows of a residual.
* `Residual.Measures`, `Measures.comparable`: the two measures of a vector, and how they bound each other.
-/

namespace MovingAsymptotes

variable {N m : Nat}

/-- The optimality conditions of a problem with `N` variables and `m` constraints. -/
inductive Condition (N m : Nat) where
  /-- Stationarity in a variable. -/
  | stationary (j : Fin N)
  /-- Complementarity of the lower end of the box. -/
  | lowerSide (j : Fin N)
  /-- Complementarity of the upper end of the box. -/
  | upperSide (j : Fin N)
  /-- Stationarity in the artificial variable of a constraint. -/
  | artificial (i : Fin m)
  /-- Stationarity in `z`. -/
  | common
  /-- A constraint with its slack. -/
  | feasible (i : Fin m)
  /-- Complementarity of the artificial variable of a constraint. -/
  | artificialSign (i : Fin m)
  /-- Complementarity of `z`. -/
  | commonSign
  /-- Complementarity of a slack. -/
  | slack (i : Fin m)

namespace Condition

/-- The conditions in the order of the rows of a residual. -/
def all (N m : Nat) : List (Condition N m) :=
  (List.finRange N).flatMap (fun j => [stationary j, lowerSide j, upperSide j]) ++
    ((List.finRange m).map artificial ++ [common] ++ (List.finRange m).map feasible ++
      (List.finRange m).map artificialSign ++ [commonSign] ++ (List.finRange m).map slack)

lemma mem_all (k : Condition N m) : k ∈ all N m := by
  unfold all
  cases k <;> simp

lemma length_all : (all N m).length = 3 * N + 4 * m + 2 := by
  unfold all
  simp
  omega

/-- No condition is listed twice. -/
lemma nodup_all : (all N m).Nodup := by
  have own : ((List.finRange N).flatMap fun j =>
      [(stationary j : Condition N m), lowerSide j, upperSide j]).Nodup := by
    rw [List.nodup_flatMap]
    refine ⟨fun j _ => by simp, (List.nodup_finRange N).imp fun {j j'} hne => ?_⟩
    simp [Function.onFun, Ne.symm hne]
  have each (f : Fin m → Condition N m) (hf : Function.Injective f) : ((List.finRange m).map f).Nodup :=
    (List.nodup_finRange m).map hf
  unfold all
  simp only [List.nodup_append, own, each artificial fun _ _ => artificial.inj,
    each feasible fun _ _ => feasible.inj, each artificialSign fun _ _ => artificialSign.inj,
    each slack fun _ _ => slack.inj, List.nodup_singleton, List.forall_mem_append, forall_mem_map_finRange,
    forall_mem_flatMap_finRange, List.forall_mem_cons, List.not_mem_nil, ne_eq, reduceCtorEq,
    not_false_eq_true, IsEmpty.forall_iff, implies_true, and_self]

instance : Fintype (Condition N m) := ⟨⟨Multiset.ofList (all N m), nodup_all⟩, mem_all⟩

instance : Nonempty (Condition N m) := ⟨common⟩

lemma sum_eq (f : Condition N m → ℝ) : ∑ k, f k = ((all N m).map f).sum := rfl

/-- Three conditions for each variable, four for each constraint, and two for `z`. -/
theorem card_eq : Fintype.card (Condition N m) = 3 * N + 4 * m + 2 := length_all

end Condition

/-- What a point makes of the optimality conditions, for a Lagrangian with the given slopes, a box around
the design `x`, and constraints with the given values. The complementarity is relaxed by `epsi`. -/
noncomputable def KktPoint.conditions (w : KktPoint ℝ N m) (wt : Weights ℝ m) (slope : Fin N → ℝ)
    (x lower upper : Vector ℝ N) (values : Fin m → ℝ) (epsi : ℝ) : Condition N m → ℝ
  | .stationary j => slope j - w.xsi[j] + w.eta[j]
  | .lowerSide j => w.xsi[j] * (x[j] - lower[j]) - epsi
  | .upperSide j => w.eta[j] * (upper[j] - x[j]) - epsi
  | .artificial i => wt.c[i] + wt.d[i] * w.y[i] - w.mu[i] - w.lambda[i]
  | .common => wt.a0 - w.zet - ∑ i : Fin m, wt.a[i] * w.lambda[i]
  | .feasible i => values i - wt.a[i] * w.z - w.y[i] + w.s[i]
  | .artificialSign i => w.mu[i] * w.y[i] - epsi
  | .commonSign => w.zet * w.z - epsi
  | .slack i => w.lambda[i] * w.s[i] - epsi

/-- The conditions of the subproblem, with the slopes and the values that its coefficients give. -/
noncomputable def Approximation.conditions (a : Approximation ℝ N m) (wt : Weights ℝ m)
    (w : KktPoint ℝ N m) (epsi : ℝ) : Condition N m → ℝ :=
  w.conditions wt
    (fun j => (a.p0[j] + ∑ i : Fin m, a.p[j][i] * w.lambda[i]) / (a.asymptotes.upp[j] - w.x[j]) ^ 2 -
      (a.q0[j] + ∑ i : Fin m, a.q[j][i] * w.lambda[i]) / (w.x[j] - a.asymptotes.low[j]) ^ 2)
    w.x a.limits.alfa a.limits.beta
    (fun i => ∑ j : Fin N, (a.p[j][i] / (a.asymptotes.upp[j] - w.x[j]) +
      a.q[j][i] / (w.x[j] - a.asymptotes.low[j])) - a.b[i])
    epsi

/-- The conditions of the problem itself at the design `x`, with the slopes and the values given. -/
noncomputable def Gradients.conditions (d : Gradients ℝ N m) (x : Vector ℝ N) (bounds : Bounds ℝ N)
    (wt : Weights ℝ m) (w : KktPoint ℝ N m) : Condition N m → ℝ :=
  w.conditions wt (fun j => d.dfdx[j] + ∑ i : Fin m, d.dgdx[j][i] * w.lambda[i]) x bounds.lower bounds.upper
    (fun i => d.g[i]) 0

namespace Approximation

variable (a : Approximation ℝ N m) (wt : Weights ℝ m) (w : KktPoint ℝ N m) (epsi : ℝ)

/-- The row of a condition. -/
noncomputable def row : Condition N m → ℝ
  | .stationary j => (a.lagrangianGradient w.x (a.lagrangian w.lambda))[j] - w.xsi[j] + w.eta[j]
  | .lowerSide j => w.xsi[j] * (w.x[j] - a.limits.alfa[j]) - epsi
  | .upperSide j => w.eta[j] * (a.limits.beta[j] - w.x[j]) - epsi
  | .artificial i => wt.c[i] + wt.d[i] * w.y[i] - w.mu[i] - w.lambda[i]
  | .common => wt.a0 - w.zet - dot wt.a w.lambda
  | .feasible i => (a.violations wt w (a.localSums w.x))[i]
  | .artificialSign i => w.mu[i] * w.y[i] - epsi
  | .commonSign => w.zet * w.z - epsi
  | .slack i => w.lambda[i] * w.s[i] - epsi

lemma rows_eq_map : a.rows wt w epsi = (Condition.all N m).map (a.row wt w epsi) := by
  unfold rows localRows sharedRows Condition.all
  simp only [List.map_append, List.map_flatMap, List.map_map, List.map_cons, List.map_nil, toList_eq_map]
  rfl

/-- The rows of the subproblem are its conditions. -/
theorem row_eq_conditions : a.row wt w epsi = a.conditions wt w epsi := by
  funext k
  cases k with
  | stationary j =>
    have slope := a.entry_lagrangianGradient w.x (a.lagrangian w.lambda) j
    simp only [entry_plam, entry_qlam, Asymptotes.above, Asymptotes.below, ← sq] at slope
    exact congrArg (· - w.xsi[j] + w.eta[j]) slope
  | common => exact congrArg (wt.a0 - w.zet - ·) (dot_eq_sum ..)
  | feasible i =>
    have values := a.entry_localSums_div w.x i
    have violation : (a.violations wt w (a.localSums w.x))[i] = _ := entry_ofFn _ i
    refine violation.trans ?_
    rw [values]
    unfold conditions KktPoint.conditions
    ring
  | _ => rfl

end Approximation

/-- The rows of the problem itself are its conditions. -/
theorem Gradients.rows_eq_map (d : Gradients ℝ N m) (x : Vector ℝ N) (bounds : Bounds ℝ N) (wt : Weights ℝ m)
    (w : KktPoint ℝ N m) :
    d.localRows x bounds w ++ sharedRows wt w.y w.mu w.lambda w.s w.z w.zet (d.violations wt w) 0 =
      (Condition.all N m).map (d.conditions x bounds wt w) := by
  have values (i : Fin m) : (d.violations wt w)[i] = d.g[i] - wt.a[i] * w.z - w.y[i] + w.s[i] :=
    entry_ofFn _ i
  unfold localRows sharedRows Condition.all conditions
  simp only [List.map_append, List.map_flatMap, List.map_map, List.map_cons, List.map_nil, toList_eq_map,
    dot_eq_sum, Mat.entry_mulVec, values]
  simp only [KktPoint.conditions, Function.comp_def, sub_zero]

namespace Residual

variable {ι : Type} [Fintype ι] {r : Residual ℝ}

/-- The measures of a vector: its Euclidean norm and its largest absolute value. -/
structure Measures (r : Residual ℝ) (v : ι → ℝ) : Prop where
  norm_eq : r.norm = ‖WithLp.toLp 2 v‖
  isGreatest_max : IsGreatest (Set.range fun k => |v k|) r.max

/-- The two measures of some rows bound each other. -/
structure Comparable (r : Residual ℝ) (rows : Nat) : Prop where
  max_le_norm : r.max ≤ r.norm
  norm_le : r.norm ≤ √(rows : ℝ) * r.max
  norm_eq_zero_iff : r.norm = 0 ↔ r.max = 0

/-- The measures of any vector with an entry bound each other. -/
theorem Measures.comparable {v : ι → ℝ} (h : r.Measures v) : r.Comparable (Fintype.card ι) := by
  obtain ⟨k, hk⟩ := h.isGreatest_max.1
  have bound (k : ι) : |v k| ≤ r.max := h.isGreatest_max.2 ⟨k, rfl⟩
  have nonneg : 0 ≤ r.max := hk ▸ abs_nonneg (v k)
  have lower : r.max ≤ r.norm := by
    rw [← hk, h.norm_eq]
    exact PiLp.norm_apply_le (WithLp.toLp 2 v) k
  have upper : r.norm ≤ √(Fintype.card ι : ℝ) * r.max := by
    have squares : ∑ k, ‖v k‖ ^ 2 ≤ Fintype.card ι * r.max ^ 2 := by
      refine (Finset.sum_le_card_nsmul _ _ _ fun k _ => pow_le_pow_left₀ (norm_nonneg _) (bound k) 2).trans ?_
      rw [Finset.card_univ, nsmul_eq_mul]
    calc r.norm = √(∑ k, ‖v k‖ ^ 2) := by rw [h.norm_eq, EuclideanSpace.norm_eq]
      _ ≤ √(Fintype.card ι * r.max ^ 2) := Real.sqrt_le_sqrt squares
      _ = √(Fintype.card ι : ℝ) * r.max := by rw [Real.sqrt_mul (Nat.cast_nonneg _), Real.sqrt_sq nonneg]
  refine ⟨lower, upper, fun h₀ => ?_, fun h₀ => ?_⟩
  · exact le_antisymm (h₀ ▸ lower) nonneg
  · rw [h₀, mul_zero] at upper
    exact le_antisymm upper (nonneg.trans lower)

/-- The residual of rows that list the conditions measures their vector. -/
theorem measures_ofRows {own shared : List ℝ} {v : Condition N m → ℝ}
    (h : own ++ shared = (Condition.all N m).map v) : (Residual.ofRows own shared).Measures v := by
  constructor
  case norm_eq =>
    have squares : (Tally.ofRows own).squares + (Tally.ofRows shared).squares = ∑ k, ‖v k‖ ^ 2 := by
      rw [Tally.squares_ofRows, Tally.squares_ofRows, ← List.sum_append, ← List.map_append, h, List.map_map,
        Condition.sum_eq]
      refine congrArg List.sum (List.map_congr_left fun k _ => ?_)
      rw [Real.norm_eq_abs, sq_abs, sq]
      rfl
    rw [EuclideanSpace.norm_eq]
    exact congrArg Real.sqrt squares
  case isGreatest_max =>
    have bounded {c : ℝ} : (Residual.ofRows own shared).max ≤ c ↔ 0 ≤ c ∧ ∀ k, |v k| ≤ c := by
      rw [max_ofRows_le_iff, h, List.forall_mem_map]
      exact and_congr_right' ⟨fun hv k => hv k (Condition.mem_all k), fun hv k _ => hv k⟩
    have upper := (bounded.1 le_rfl).2
    obtain ⟨k, hk⟩ := Finite.exists_max fun k => |v k|
    refine ⟨⟨k, le_antisymm (upper k) (bounded.2 ⟨abs_nonneg _, hk⟩)⟩, ?_⟩
    rintro _ ⟨k, rfl⟩
    exact upper k

end Residual

end MovingAsymptotes
