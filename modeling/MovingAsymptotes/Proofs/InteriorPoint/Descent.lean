import MovingAsymptotes.Proofs.InteriorPoint.Linearisation

/-!
# The line search of the interior-point method

Along the Newton direction every row of the residual falls at the rate of its own value, so the sum of
their squares falls at twice its own. A residual that does not vanish is therefore smaller after every
step that is short enough. The trial steps are halved until they are that short, and the search ends there
at the latest: how many halvings that takes depends on the point alone, and a cap that allows for them
does not matter.

* `Approximation.norm_descends`: short steps lower the residual norm.
* `Approximation.backtrack_stops`: the search ends with the first trial step that does not raise it.
* `Approximation.lineSearch_stops`: a Newton step whose line search the cap does not end.
-/

namespace MovingAsymptotes

open Filter Topology

variable {n m : Nat}

section Slopes

/-- The norm of a residual by the squares of all its rows. -/
lemma Residual.norm_ofRows (own shared : List ℝ) :
    (Residual.ofRows own shared).norm = √((own ++ shared).map fun r => r * r).sum := by
  change √((Tally.ofRows own).squares + (Tally.ofRows shared).squares) = _
  rw [Tally.squares_ofRows, Tally.squares_ofRows, List.map_append, List.sum_append]

/-- If values fall at the rate of their own size, the sum of their squares falls at twice its own. -/
lemma hasDerivAt_sum_squares {ι : Type} {f : ι → ℝ → ℝ} (h : ∀ q, HasDerivAt (f q) (-f q 0) 0) (l : List ι) :
    HasDerivAt (fun t => (l.map fun q => f q t * f q t).sum) (-2 * (l.map fun q => f q 0 * f q 0).sum) 0 := by
  induction l with
  | nil => exact (hasDerivAt_const 0 0).congr_deriv (mul_zero (-2)).symm
  | cons q l ih =>
    simp only [List.map_cons, List.sum_cons]
    refine (((h q).fun_mul (h q)).fun_add ih).congr_deriv ?_
    ring

/-- A function with a negative slope is smaller shortly afterwards. -/
lemma eventually_lt_of_slope {g : ℝ → ℝ} {g' : ℝ} (h : HasDerivAt g g' 0) (hg : g' < 0) :
    ∀ᶠ t in 𝓝[>] 0, g t < g 0 := by
  filter_upwards [h.tendsto_slope_zero_right.eventually_lt_const hg, self_mem_nhdsWithin] with t slope ht
  rw [zero_add, smul_eq_mul] at slope
  exact sub_neg.1 (neg_of_mul_neg_right slope (inv_pos.2 ht).le)

/-- Halved often enough, a step has every property that all short steps have; there is a first time. -/
lemma exists_first_halving {p : ℝ → Prop} (h : ∀ᶠ t in 𝓝[>] 0, p t) {step : ℝ} (hs : 0 < step) :
    ∃ k : Nat, p (step * 0.5 ^ k) ∧ ∀ j < k, ¬ p (step * 0.5 ^ j) := by
  obtain ⟨t₀, ht₀, short⟩ := mem_nhdsGT_iff_exists_Ioo_subset.1 h
  obtain ⟨k, hk⟩ := exists_pow_lt_of_lt_one (div_pos ht₀ hs) (show (0.5 : ℝ) < 1 by norm_num)
  have below : step * 0.5 ^ k < t₀ := by
    rw [mul_comm]
    exact (lt_div_iff₀ hs).1 hk
  have some_halving : ∃ k : Nat, p (step * 0.5 ^ k) := ⟨k, short ⟨mul_pos hs (pow_pos (by norm_num) k), below⟩⟩
  classical
  exact ⟨Nat.find some_halving, Nat.find_spec some_halving, fun _ hj => Nat.find_min some_halving hj⟩

end Slopes

variable {a : Approximation ℝ n m} {wt : Weights ℝ m} {w dir : KktPoint ℝ n m} {epsi : ℝ}

lemma KktPoint.stepped_zero (w dir : KktPoint ℝ n m) : w.stepped dir 0 = w := by
  unfold stepped
  simp only [along_zero, mul_zero, add_zero]

namespace Approximation

/-- The Newton direction satisfies the conditions to first order, whichever elimination finds it. -/
lemma newtonDirection_serial (ha : a.Convex) (hd : ∀ i : Fin m, 0 < wt.d[i]) (hi : w.Interior a) (epsi : ℝ) :
    ∃ dir, a.Linearised wt w dir epsi ∧ ∀ e, (a.newtonDirection wt e w epsi).serial = .done dir := by
  have hk := NewtonBlocks.ofPoint_positive ha hd hi epsi (a.localSums w.x)
  obtain ⟨_, -, core, hcore, rfl⟩ := newtonDirection_returns ha hd hi (.single 0) epsi
  refine ⟨_, (linearised_iff_solves ha hd hi).2 ⟨core, hcore, rfl⟩, fun e => ?_⟩
  obtain ⟨_, hserial, core', hcore', rfl⟩ := newtonDirection_returns ha hd hi e epsi
  rw [hserial, hcore'.unique hk hcore]

/-- Along a direction that satisfies the conditions to first order, short steps lower the residual norm. -/
theorem norm_descends (ha : a.Convex) (hx : a.limits.Contains w.x) (hdir : a.Linearised wt w dir epsi)
    (hn : (a.residualOf wt w epsi).norm ≠ 0) :
    ∀ᶠ t in 𝓝[>] 0, (a.residualOf wt (w.stepped dir t) epsi).norm < (a.residualOf wt w epsi).norm := by
  let squares : ℝ → ℝ := fun t =>
    ((Condition.all n m).map fun q => a.row wt (w.stepped dir t) epsi q * a.row wt (w.stepped dir t) epsi q).sum
  have norm (t : ℝ) : (a.residualOf wt (w.stepped dir t) epsi).norm = √(squares t) := by
    unfold residualOf
    rw [Residual.norm_ofRows]
    change √((a.rows wt (w.stepped dir t) epsi).map fun r => r * r).sum = _
    rw [rows_eq_map, List.map_map]
    rfl
  have here : (a.residualOf wt w epsi).norm = √(squares 0) := by rw [← norm, KktPoint.stepped_zero]
  have positive : 0 < squares 0 := by
    refine lt_of_not_ge fun hle => hn ?_
    rw [here, Real.sqrt_eq_zero'.2 hle]
  have slope : HasDerivAt squares (-2 * squares 0) 0 := by
    refine hasDerivAt_sum_squares (fun q => ?_) (Condition.all n m)
    rw [KktPoint.stepped_zero, ← (linearised_iff_rowSlope ha hx).1 hdir q]
    exact hasDerivAt_row ha hx dir epsi q
  filter_upwards [eventually_lt_of_slope slope (by linarith)] with t ht
  rw [norm, here]
  exact (Real.sqrt_lt_sqrt_iff_of_pos positive).2 ht

/-- The line search ends with the first trial step that does not raise the residual norm, unless the cap ends
it before. -/
theorem backtrack_stops {norm step : ℝ} {k more : Nat} (hk : k ≤ more)
    (stops : (a.residualOf wt (w.stepped dir (step * 0.5 ^ k)) epsi).norm ≤ norm)
    (before : ∀ j < k, norm < (a.residualOf wt (w.stepped dir (step * 0.5 ^ j)) epsi).norm) :
    (a.backtrack wt w dir epsi norm more step).Returns fun next =>
      next = (w.stepped dir (step * 0.5 ^ k), a.residualOf wt (w.stepped dir (step * 0.5 ^ k)) epsi) := by
  induction k generalizing more step with
  | zero =>
    rw [pow_zero, mul_one] at stops ⊢
    cases more with
    | zero => exact trial_returns step
    | succ more =>
      refine (trial_returns step).bind ?_
      rintro _ rfl
      dsimp only
      rw [if_pos stops]
      exact Program.returns_pure rfl
  | succ k ih =>
    obtain ⟨more, rfl⟩ := Nat.exists_eq_succ_of_ne_zero (Nat.ne_zero_of_lt hk)
    have first := before 0 (Nat.succ_pos k)
    rw [pow_zero, mul_one] at first
    refine (trial_returns step).bind ?_
    rintro _ rfl
    dsimp only
    rw [if_neg first.not_ge]
    -- The trial steps that follow are those of a search that starts with half the step.
    have halved (j : Nat) : step * 0.5 ^ (j + 1) = step * 0.5 * 0.5 ^ j := by
      rw [pow_succ']
      ring
    rw [halved] at stops ⊢
    exact ih (Nat.le_of_succ_le_succ hk) stops fun j hj => halved j ▸ before (j + 1) (Nat.succ_lt_succ hj)

/-- A Newton step whose line search the cap does not end: it adds no exhausted search to the record. -/
lemma interiorStep_stops {e : Execution} {inverse : ℝ} {k : Nat} {s : Settings ℝ} {r : Residual ℝ}
    (hdir : (a.newtonDirection wt e w epsi).serial = .done dir)
    (hinverse : (a.inverseStep w dir).serial = .done inverse)
    (stops : (a.residualOf wt (w.stepped dir (1 / inverse * 0.5 ^ k)) epsi).norm ≤ r.norm)
    (before : ∀ j < k, r.norm < (a.residualOf wt (w.stepped dir (1 / inverse * 0.5 ^ j)) epsi).norm)
    (hs : k + 1 ≤ s.maxBacktracks) :
    (a.interiorStep wt s e w r epsi).Returns fun next =>
      next.state = w.stepped dir (1 / inverse * 0.5 ^ k) ∧ next.residual.norm ≤ r.norm ∧
        ∀ d : Diagnostics ℝ, (d.afterStep next).exhaustedLineSearches = d.exhaustedLineSearches := by
  unfold interiorStep
  refine (Program.returns_eq_iff.2 hdir).bind ?_
  rintro _ rfl
  refine (Program.returns_eq_iff.2 hinverse).bind ?_
  rintro _ rfl
  refine (backtrack_stops (Nat.le_sub_of_add_le hs) stops before).bind ?_
  rintro _ rfl
  refine Program.returns_pure ⟨rfl, stops, fun d => ?_⟩
  unfold Diagnostics.afterStep
  rw [decide_eq_false stops.not_gt, if_neg Bool.false_ne_true, add_zero]

/-- At an interior point whose residual does not vanish, all steps in the Newton direction that are short
enough lead to interior points and lower the residual norm. So the line search ends after a number of halvings
that the point determines, with a trial step that does not raise the norm, under every cap that allows for
them. -/
theorem lineSearch_stops (ha : a.Convex) (hd : ∀ i : Fin m, 0 < wt.d[i]) (hi : w.Interior a) {r : Residual ℝ}
    (hr : (a.residual wt w epsi).serial = .done r) (hn : r.norm ≠ 0) :
    ∃ dir, (∀ e, (a.newtonDirection wt e w epsi).serial = .done dir) ∧
      (∃ t₀ > 0, ∀ t, 0 < t → t < t₀ → (w.stepped dir t).Interior a ∧
        ∃ r', (a.residual wt (w.stepped dir t) epsi).serial = .done r' ∧ r'.norm < r.norm) ∧
      ∃ inverse k, (a.inverseStep w dir).serial = .done inverse ∧
        ∀ (s : Settings ℝ) e, k + 1 ≤ s.maxBacktracks →
          ∃ next, (a.interiorStep wt s e w r epsi).serial = .done next ∧
            next.state = w.stepped dir (1 / inverse * 0.5 ^ k) ∧ next.residual.norm ≤ r.norm ∧
            ∀ d : Diagnostics ℝ, (d.afterStep next).exhaustedLineSearches = d.exhaustedLineSearches := by
  obtain rfl : r = a.residualOf wt w epsi := by
    rw [residual_serial] at hr
    cases hr
    rfl
  obtain ⟨dir, linearised, serial⟩ := newtonDirection_serial ha hd hi epsi
  obtain ⟨inverse, hinverse, bounds⟩ : (a.inverseStep w dir).Returns _ := inverseStep_returns
  have first : 0 < 1 / inverse := one_div_pos.2 bounds.pos
  have descends := norm_descends ha hi.contains linearised hn
  obtain ⟨t₀, ht₀, short⟩ := mem_nhdsGT_iff_exists_Ioo_subset.1 (inter_mem descends (Ioo_mem_nhdsGT first))
  obtain ⟨k, stops, before⟩ := exists_first_halving (descends.mono fun _ h => h.le) first
  refine ⟨dir, serial, ⟨t₀, ht₀, fun t hpos hlt => ?_⟩, inverse, k, hinverse, fun s e hs =>
    interiorStep_stops (serial e) hinverse stops (fun j hj => lt_of_not_ge (before j hj)) hs⟩
  obtain ⟨lower, -, inside⟩ := short ⟨hpos, hlt⟩
  exact ⟨hi.stepped bounds hpos ((le_div_iff₀ bounds.pos).1 inside.le), _, residual_serial .., lower⟩

/-- The start of a solve of the sample, where the multiplier of `y` is too large by far. -/
theorem sample_lineSearch :
    let w := (sample 1).interiorStart sampleWeights
    ∃ k, ∀ (s : Settings ℝ) e, k + 1 ≤ s.maxBacktracks →
      ∃ next, ((sample 1).interiorStep sampleWeights s e w ((sample 1).residualOf sampleWeights w 1) 1).serial =
          .done next ∧
        next.residual.norm ≤ ((sample 1).residualOf sampleWeights w 1).norm ∧
        (Diagnostics.initial.afterStep next).exhaustedLineSearches = 0 := by
  intro w
  have ha := sample_wellPosed 1
  have nonzero : ((sample 1).residualOf sampleWeights w 1).norm ≠ 0 := by
    rw [Ne, residualOf_norm_eq_zero_iff]
    intro rows
    have row := rows.shared.artificialSign 0
    have mu : w.mu[(0 : Fin 1)] = larger (0.5 * 1000) 1 := entry_map _ _ 0
    have y : w.y[(0 : Fin 1)] = 1 := entry_replicate _ _
    rw [mu, y, larger_eq_max] at row
    norm_num at row
  obtain ⟨dir, -, -, inverse, k, -, search⟩ :=
    lineSearch_stops ha.convex sampleWeights_valid.d_pos (interiorStart_interior ha) (residual_serial ..) nonzero
  refine ⟨k, fun s e hs => ?_⟩
  obtain ⟨next, hnext, -, hnorm, counted⟩ := search s e hs
  exact ⟨next, hnext, hnorm, counted .initial⟩

end Approximation

end MovingAsymptotes
