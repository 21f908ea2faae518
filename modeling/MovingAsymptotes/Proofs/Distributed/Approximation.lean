import MovingAsymptotes.Proofs.Distributed.Residual
import MovingAsymptotes.Proofs.Dual.Derivative

/-!
# The approximation as a model of the problem

The ranks of a group build the approximations of their own variables. Added up, these are models of the
objective and of the constraints: each agrees with its function at the design to first order, and is
strictly convex between the asymptotes. A model is a sum of terms of one variable each, and what is needed
of the sum is known of the terms. The values of the constraints count once: a right-hand side is a sum over
all ranks less the value given.

* `StrictConvexOn.separable`, `HasSlopes.separable`: sums of functions of one variable each.
* `Approximation.ModelsAt`: strictly convex functions with given slopes at a design.
* `Approximation.build_models`: what a group builds.
-/

namespace MovingAsymptotes

variable {N R m : Nat}

section Separable

/-- A sum of strictly convex functions of one variable each. -/
lemma StrictConvexOn.separable {s : Fin N → Set ℝ} {f : Fin N → ℝ → ℝ}
    (h : ∀ j, StrictConvexOn ℝ (s j) (f j)) :
    StrictConvexOn ℝ {v : Fin N → ℝ | ∀ j, v j ∈ s j} fun v => ∑ j, f j (v j) := by
  refine ⟨fun v hv u hu a b ha hb hab j => (h j).1 (hv j) (hu j) ha hb hab, ?_⟩
  intro v hv u hu hne a b ha hb hab
  obtain ⟨k, hk⟩ := Function.ne_iff.1 hne
  have strict := (h k).2 (hv k) (hu k) hk ha hb hab
  have weak (j : Fin N) := (h j).convexOn.2 (hv j) (hu j) ha.le hb.le hab
  calc ∑ j, f j ((a • v + b • u) j)
      < ∑ j, (a • f j (v j) + b • f j (u j)) :=
        Finset.sum_lt_sum (fun j _ => weak j) ⟨k, Finset.mem_univ k, strict⟩
    _ = a • ∑ j, f j (v j) + b • ∑ j, f j (u j) := by
        rw [Finset.sum_add_distrib, Finset.smul_sum, Finset.smul_sum]

/-- A sum of functions of one variable each, with their derivatives. -/
lemma HasSlopes.separable {f : Fin N → ℝ → ℝ} {slopes v : Fin N → ℝ}
    (h : ∀ j, HasDerivAt (f j) (slopes j) (v j)) : HasSlopes (fun u => ∑ j, f j (u j)) slopes v := by
  have entry (j : Fin N) : HasSlopes (fun u => u j) (fun k => if j = k then 1 else 0) v :=
    .of_hasFDerivAt (hasFDerivAt_apply j v) fun u => by simp
  have composed (j : Fin N) : HasSlopes (fun u => f j (u j)) (fun k => slopes j * if j = k then 1 else 0) v :=
    .comp (h j) (entry j)
  refine (HasSlopes.sum composed).congr_slopes fun k => ?_
  simp

variable {low upp : ℝ}

/-- Between its poles a term with positive coefficients lies below its chords. -/
lemma strictConvexOn_term {p q : ℝ} (hp : 0 < p) (hq : 0 < q) :
    StrictConvexOn ℝ (Set.Ioo low upp) fun t => p * (1 / (upp - t)) + q * (1 / (t - low)) := by
  have pole {u v a b : ℝ} (hu : 0 < u) (hv : 0 < v) (hne : u ≠ v) (ha : 0 < a) (hb : 0 < b)
      (hab : a + b = 1) : 1 / (a * u + b * v) < a * (1 / u) + b * (1 / v) := by
    have h := (strictConvexOn_zpow (m := -1) (by decide) (by decide)).2 hu hv hne ha hb hab
    simpa only [zpow_neg_one, smul_eq_mul, one_div] using h
  refine ⟨convex_Ioo low upp, ?_⟩
  intro v hv u hu hne a b ha hb hab
  have above := pole (sub_pos.2 hv.2) (sub_pos.2 hu.2) (fun h => hne (sub_right_injective h)) ha hb hab
  have below := pole (sub_pos.2 hv.1) (sub_pos.2 hu.1) (fun h => hne (sub_left_injective h)) ha hb hab
  have upper : upp - (a * v + b * u) = a * (upp - v) + b * (upp - u) := by linear_combination -upp * hab
  have lower : a * v + b * u - low = a * (v - low) + b * (u - low) := by linear_combination low * hab
  simp only [smul_eq_mul]
  rw [upper, lower]
  calc p * (1 / (a * (upp - v) + b * (upp - u))) + q * (1 / (a * (v - low) + b * (u - low)))
      < p * (a * (1 / (upp - v)) + b * (1 / (upp - u))) + q * (a * (1 / (v - low)) + b * (1 / (u - low))) :=
        add_lt_add (mul_lt_mul_of_pos_left above hp) (mul_lt_mul_of_pos_left below hq)
    _ = a * (p * (1 / (upp - v)) + q * (1 / (v - low))) + b * (p * (1 / (upp - u)) + q * (1 / (u - low))) := by
        ring

end Separable

namespace Approximation

/-- The share of this rank's variables in the value of the approximated objective. -/
noncomputable def localObjective {n : Nat} (a : Approximation ℝ n m) (x : Vector ℝ n) : ℝ :=
  ∑ j : Fin n, (a.p0[j] / a.asymptotes.above x j + a.q0[j] / a.asymptotes.below x j)

/-- A function that is strictly convex between the asymptotes and has the given slopes at a design. -/
structure ModelsAt (asy : Asymptotes ℝ N) (x : Vector ℝ N) (f : Vector ℝ N → ℝ) (slopes : Fin N → ℝ) :
    Prop where
  slopes : HasSlopes (fun v => f (.ofFn v)) slopes fun j => x[j]
  strictConvex : StrictConvexOn ℝ {v | asy.Encloses (.ofFn v)} fun v => f (.ofFn v)

variable {asy : Asymptotes ℝ N} {x : Vector ℝ N} {s : Settings ℝ}

/-- The coefficients around a design make up a model there, whatever the slopes. -/
lemma modelsAt_coefficients (hx : asy.Encloses x) (hr : 0 < s.raa0) (slopes : Fin N → ℝ) (b : ℝ)
    {f : Vector ℝ N → ℝ} (hf : ∀ y, f y = ∑ j : Fin N,
      (upperCoefficient asy s x j (slopes j) * (1 / asy.above y j) +
        lowerCoefficient asy s x j (slopes j) * (1 / asy.below y j)) + b) :
    ModelsAt asy x f slopes := by
  have terms (v : Fin N → ℝ) : f (.ofFn v) = ∑ j : Fin N,
      (upperCoefficient asy s x j (slopes j) * (1 / (asy.upp[j] - v j)) +
        lowerCoefficient asy s x j (slopes j) * (1 / (v j - asy.low[j]))) + b := by
    rw [hf]
    unfold Asymptotes.above Asymptotes.below
    simp only [entry_ofFn]
  have between : {v : Fin N → ℝ | asy.Encloses (.ofFn v)} =
      {v | ∀ j : Fin N, v j ∈ Set.Ioo asy.low[j] asy.upp[j]} := by
    unfold Asymptotes.Encloses
    simp only [entry_ofFn, Set.mem_Ioo]
  constructor
  · have slope (j : Fin N) := hasDerivAt_term (upperCoefficient asy s x j (slopes j))
      (lowerCoefficient asy s x j (slopes j)) (sub_pos.2 (hx j).2).ne' (sub_pos.2 (hx j).1).ne'
    refine ((HasSlopes.separable slope).add (.const b)).congr_values (.of_forall terms)
      |>.congr_slopes fun j => ?_
    rw [add_zero]
    exact coefficients_slope hx
  · rw [between, funext terms]
    exact (StrictConvexOn.separable fun j => strictConvexOn_term (upperCoefficient_pos hx hr)
      (lowerCoefficient_pos hx hr)).add_const b

variable (d : Gradients ℝ N m) (limits : MoveLimits ℝ N) (nGlobal : Nat)

lemma Raised.part {a : Approximation ℝ N m} (h : a.Raised) {k : Nat} (ι : Fin k → Fin N) :
    (a.part ι).Raised where
  p0_pos j := (entry_pick ι a.p0 j).symm ▸ h.p0_pos (ι j)
  q0_pos j := (entry_pick ι a.q0 j).symm ▸ h.q0_pos (ι j)
  p_pos j i := by
    simp only [Approximation.part, entry_pick]
    exact h.p_pos (ι j) i
  q_pos j i := by
    simp only [Approximation.part, entry_pick]
    exact h.q_pos (ι j) i

/-- The objective of a single rank is a model. -/
lemma localObjective_around (hx : asy.Encloses x) (hr : 0 < s.raa0) :
    ModelsAt asy x (around x d asy limits nGlobal s).localObjective fun j => d.dfdx[j] := by
  refine modelsAt_coefficients hx hr _ 0 fun y => ?_
  unfold localObjective
  simp only [around, coefficients, entry_ofFn, mul_one_div, add_zero]

/-- So are its constraints, less the right-hand sides. -/
lemma constraint_around (hx : asy.Encloses x) (hr : 0 < s.raa0) (i : Fin m) :
    let a := around x d asy limits nGlobal s
    ModelsAt asy x (fun y => (a.localSums y)[i] - a.b[i]) fun j => d.dgdx[j][i] := by
  intro a
  refine modelsAt_coefficients hx hr _ (-a.b[i]) fun y => ?_
  rw [entry_localSums, sub_eq_add_neg]
  simp only [a, around, coefficients, Mat.getElem_ofFn]

lemma sum_localObjective (δ : Distribution N R) (a : Approximation ℝ N m) (y : Vector ℝ N) :
    a.localObjective y =
      ∑ r : Fin (R + 1), (a.part (δ.place r)).localObjective (pick (δ.place r) y) := by
  unfold localObjective
  rw [← δ.sum_place]
  refine Finset.sum_congr rfl fun r _ => Finset.sum_congr rfl fun j _ => ?_
  simp only [Approximation.part, Asymptotes.above_part, Asymptotes.below_part, entry_pick]

/-- However the variables are spread over the ranks, the ranks build positive coefficients. Their sums model
the objective and, less the right-hand sides, each constraint: with the slopes given, strictly convex between
the asymptotes, and with the values given for the constraints. -/
theorem build_models (δ : Distribution N R) (hx : asy.Encloses x) (hr : 0 < s.raa0) :
    ∃ a : ∀ r, Approximation ℝ (δ.size r) m,
      Program.outcomes (fun r => build (pick (δ.place r) x) (d.part (δ.place r)) (asy.part (δ.place r))
          (limits.part (δ.place r)) nGlobal s) = some (List.ofFn fun r => .done ⟨r, a r⟩) ∧
        (∀ r, (a r).Raised) ∧
        ModelsAt asy x (fun y => ∑ r, (a r).localObjective (pick (δ.place r) y)) (fun j => d.dfdx[j]) ∧
        ∀ (q : Fin (R + 1)) (i : Fin m),
          (∑ r, ((a r).localSums (pick (δ.place r) x))[i]) - (a q).b[i] = d.g[i] ∧
            ModelsAt asy x (fun y => (∑ r, ((a r).localSums (pick (δ.place r) y))[i]) - (a q).b[i])
              fun j => d.dgdx[j][i] := by
  let whole := around x d asy limits nGlobal s
  obtain ⟨a, hout, parts⟩ :=
    (simulates_build δ x d asy limits nGlobal s).outcomes_eq (build_serial x d asy limits nGlobal s)
  have objective (y : Vector ℝ N) :
      ∑ r, (a r).localObjective (pick (δ.place r) y) = whole.localObjective y := by
    simp only [parts, whole.sum_localObjective δ]
    rfl
  have constraint (y : Vector ℝ N) (q : Fin (R + 1)) (i : Fin m) :
      (∑ r, ((a r).localSums (pick (δ.place r) y))[i]) - (a q).b[i] = (whole.localSums y)[i] - whole.b[i] := by
    simp only [parts, sum_localSums δ whole]
    rfl
  refine ⟨a, hout, fun r => ?_, ?_, fun q i => ⟨?_, ?_⟩⟩
  · rw [parts]
    exact (around_raised d limits nGlobal hx hr).part (δ.place r)
  · simp only [objective]
    exact localObjective_around d limits nGlobal hx hr
  · rw [constraint]
    exact localSums_sub_around d limits nGlobal i
  · simp only [constraint]
    exact constraint_around d limits nGlobal hx hr i

/-- Two variables on the first and on the last of three ranks, with slopes of both signs. -/
theorem build_models_around_idle_rank :
    let δ : Distribution 2 2 := ⟨![1, 0, 1], finSigmaFinEquiv.trans (finCongr (by decide))⟩
    let asy : Asymptotes ℝ 2 := ⟨#v[0, 0], #v[1, 2]⟩
    let limits : MoveLimits ℝ 2 := ⟨#v[0.1, 0.1], #v[0.9, 1.9]⟩
    let d : Gradients ℝ 2 1 := ⟨#v[-2, 3], #v[0.3], #v[#v[0.7], #v[-1.5]]⟩
    let x : Vector ℝ 2 := #v[0.4, 1]
    ∃ a : ∀ r, Approximation ℝ (δ.size r) 1,
      Program.outcomes (fun r => build (pick (δ.place r) x) (d.part (δ.place r)) (asy.part (δ.place r))
          (limits.part (δ.place r)) 2 .default) = some (List.ofFn fun r => .done ⟨r, a r⟩) ∧
        ∀ q : Fin 3, (∑ r, ((a r).localSums (pick (δ.place r) x))[(0 : Fin 1)]) - (a q).b[(0 : Fin 1)] = 0.3 ∧
          ModelsAt asy x (fun y => (∑ r, ((a r).localSums (pick (δ.place r) y))[(0 : Fin 1)]) -
            (a q).b[(0 : Fin 1)]) fun j => d.dgdx[j][(0 : Fin 1)] := by
  intro δ asy limits d x
  have between : asy.Encloses x := by
    intro j
    fin_cases j
    · show (0 : ℝ) < 0.4 ∧ (0.4 : ℝ) < 1
      norm_num
    · show (0 : ℝ) < 1 ∧ (1 : ℝ) < 2
      norm_num
  have usual := (Settings.validate_eq_ok_iff (Settings.default : Settings ℝ)).1 Settings.validate_default
  obtain ⟨a, hout, -, -, constraints⟩ := build_models d limits 2 δ between usual.raa0_pos
  exact ⟨a, hout, fun q => constraints q 0⟩

end Approximation

end MovingAsymptotes
