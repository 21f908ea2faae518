import MovingAsymptotes.Proofs.Confinement
import MovingAsymptotes.Proofs.Distributed.Optimizer
import MovingAsymptotes.Proofs.Kkt.Optimality
import MovingAsymptotes.Proofs.Reduction.Lockstep

/-!
# Signs along a solve

A solve of the dual comes through positive multipliers only, whatever the other ranks contribute: a rank
shortens its step by the multipliers that it holds, and every rank holds all of them. An interior-point
solve comes through interior points only, and tries interior points only, as long as the bound of a step is
at least the one that the rank itself contributes to it. So the smallest multiplier on record is positive
on every rank.

* `Reached.keeps`: what every step keeps holds wherever a solve comes through.
* `Approximation.dualPositive`, `Approximation.interiorPositive`: the signs along a solve.
* `Approximation.solve_positive`: the same for the ranks of a group, and the signs of their solutions.
-/

namespace MovingAsymptotes

section Record

/-- What is seen is larger than a bound if it was before, and if the new value is. -/
lemma Diagnostics.forall_mem_smallestSeen {seen : Option ℝ} {a c : ℝ} :
    (∀ v ∈ smallestSeen seen a, c < v) ↔ (∀ v ∈ seen, c < v) ∧ c < a := by
  unfold smallestSeen
  cases seen <;> simp

lemma Diagnostics.forall_mem_foldl_smallestSeen {l : List ℝ} {seen : Option ℝ} {c : ℝ} :
    (∀ v ∈ l.foldl smallestSeen seen, c < v) ↔ (∀ v ∈ seen, c < v) ∧ ∀ v ∈ l, c < v := by
  induction l generalizing seen with
  | nil => simp
  | cons a l ih => rw [List.foldl_cons, ih, forall_mem_smallestSeen, List.forall_mem_cons, and_assoc]

lemma Diagnostics.smallestSeen_ne_none (seen : Option ℝ) (a : ℝ) : smallestSeen seen a ≠ none := by
  unfold smallestSeen
  cases seen <;> simp

lemma Diagnostics.foldl_smallestSeen_eq_none_iff {l : List ℝ} {seen : Option ℝ} :
    l.foldl smallestSeen seen = none ↔ seen = none ∧ l = [] := by
  induction l generalizing seen with
  | nil => simp
  | cons a l ih => simp [ih, smallestSeen_ne_none]

/-- The smallest entry of a vector is the smallest that is seen in it. -/
lemma least_eq_foldl {n : Nat} (v : Vector ℝ n) :
    least v = v.toList.foldl Diagnostics.smallestSeen none := by
  unfold least
  congr 1
  funext seen a
  unfold Diagnostics.smallestSeen
  cases seen with
  | none => rw [if_pos (isNumber a)]
  | some b => exact congrArg some ((min_def b a).symm.trans (smaller_eq_min b a).symm)

lemma forall_mem_least {n : Nat} {v : Vector ℝ n} {c : ℝ} (hv : ∀ i : Fin n, c < v[i]) :
    ∀ a ∈ (least v).toList, c < a := by
  simp only [Option.mem_toList, least_eq_foldl]
  exact Diagnostics.forall_mem_foldl_smallestSeen.2 ⟨nofun, forall_mem_toList.2 hv⟩

lemma toList_least_ne_nil {n : Nat} (hn : n ≠ 0) (v : Vector ℝ n) : (least v).toList ≠ [] := by
  rw [least_eq_foldl, Ne, Option.toList_eq_nil_iff, Diagnostics.foldl_smallestSeen_eq_none_iff]
  rintro ⟨-, hv⟩
  exact hn (by simpa using congrArg List.length hv)

end Record

namespace BarrierMethod

variable {σ : Type} {A : Replies ℝ} {m : BarrierMethod ℝ σ} {epsimin : ℝ} {start : σ}

/-- What every step keeps holds wherever a solve comes through, and if every step sees positive multipliers
only, the smallest one on record is positive. -/
theorem Reached.keeps {I : σ → Prop} {e : ℝ} {p : Progress ℝ σ} (h : m.Reached epsimin start A e p)
    (hs : I start) (step : ∀ s r e, I s →
      (m.advance s r e).Ensures A fun next => I next.state ∧ ∀ v ∈ next.seen, 0 < v) :
    I p.state ∧ ∀ v ∈ p.diagnostics.minMultiplier, 0 < v := by
  induction h with
  | enter _ => exact ⟨hs, nofun⟩
  | step _ _ hn ih =>
    obtain ⟨hstate, hseen⟩ := (step _ _ _ ih.1).of_ends hn
    exact ⟨hstate, Diagnostics.forall_mem_foldl_smallestSeen.2 ⟨ih.2, hseen⟩⟩
  | descend _ _ _ ih => exact ih

/-- If every step sees some multiplier, none is on record only before the first step. -/
theorem Reached.recorded {e : ℝ} {p : Progress ℝ σ} (h : m.Reached epsimin start A e p)
    (step : ∀ s r e, (m.advance s r e).Ensures A fun next => next.seen ≠ []) :
    p.diagnostics.minMultiplier = none → p.diagnostics.newtonIterations = 0 := by
  induction h with
  | enter _ => exact fun _ => rfl
  | step _ _ hn _ =>
    intro hnone
    exact absurd (Diagnostics.foldl_smallestSeen_eq_none_iff.1 hnone).2 ((step _ _ _).of_ends hn)
  | descend _ _ _ ih => exact ih

end BarrierMethod

variable {n m : Nat} {a : Approximation ℝ n m} {wt : Weights ℝ m} {s : Settings ℝ} {A : Replies ℝ}

namespace DualState

variable {state : DualState ℝ n m}

/-- Positive multipliers with the minimiser that belongs to them. -/
structure Positive (a : Approximation ℝ n m) (wt : Weights ℝ m) (state : DualState ℝ n m) : Prop where
  lambda_pos : ∀ i : Fin m, 0 < state.lambda[i]
  eta_pos : ∀ i : Fin m, 0 < state.eta[i]
  point : state.point = .ofMultipliers a wt state.lambda

lemma ofMultipliers_positive {lambda eta : Vector ℝ m} (hl : ∀ i : Fin m, 0 < lambda[i])
    (he : ∀ i : Fin m, 0 < eta[i]) : (ofMultipliers a wt lambda eta).Ensures A (Positive a wt) :=
  Program.ensures_bind fun _ => ⟨hl, he, rfl⟩

/-- A Newton step keeps the multipliers positive, and it sees the smallest of either kind. -/
lemma Positive.advance (hs : state.Positive a wt) (epsi : ℝ) :
    (state.advance a wt epsi).Ensures A fun next =>
      next.state.Positive a wt ∧ ∀ v ∈ next.seen, 0 < v := by
  unfold DualState.advance
  refine Program.ensures_bind fun hess => ?_
  cases state.direction? hess epsi with
  | none => trivial
  | some direction =>
    obtain ⟨hl, he⟩ := stepLength_keeps hs.lambda_pos hs.eta_pos direction.1 direction.2
    refine (ofMultipliers_positive hl he).bind fun next hn => ⟨hn, ?_⟩
    exact List.forall_mem_append.2 ⟨forall_mem_least hn.lambda_pos, forall_mem_least hn.eta_pos⟩

/-- A step sees the smallest multiplier of either kind, and ends no line search. -/
lemma advance_reports (state : DualState ℝ n m) (epsi : ℝ) :
    (state.advance a wt epsi).Ensures A fun next =>
      next.seen = (least next.state.lambda).toList ++ (least next.state.eta).toList ∧
      next.exhausted = false := by
  refine Program.ensures_bind fun hess => ?_
  cases state.direction? hess epsi with
  | none => trivial
  | some direction => exact Program.ensures_bind fun _ => ⟨rfl, rfl⟩

/-- The recovered point lies within the move limits, and none of its multipliers and slacks is negative. -/
lemma Positive.admissible (ha : a.WellPosed) (hs : state.Positive a wt) :
    (state.toPoint a wt).Admissible a := by
  have part (v : ℝ) : 0 ≤ positivePart v ∧ 0 ≤ negativePart v := by
    rw [positivePart_eq, negativePart_eq]
    exact ⟨le_max_right _ _, le_max_right _ _⟩
  unfold toPoint
  constructor
  case contains =>
    change a.limits.Contains state.point.x
    rw [hs.point]
    exact DualPoint.ofMultipliers_contains ha
  case z_nonneg =>
    rw [hs.point]
    exact mul_nonneg DualPoint.zScale_pos.le (part _).1
  case zet_nonneg => exact (part _).1
  case lambda_nonneg => exact fun i => (hs.lambda_pos i).le
  all_goals
    intro i
    simp only [hs.point, DualPoint.ofMultipliers, entry_ofFn, entry_map]
  case s_nonneg => exact (part _).2
  case eta_nonneg => exact (part _).2
  all_goals exact (part _).1

end DualState

section Interior

variable {w : KktPoint ℝ n m}

lemma KktPoint.Interior.signedValues_pos (hi : w.Interior a) :
    ∀ v ∈ Approximation.signedValues w, 0 < v := by
  unfold Approximation.signedValues
  simp only [List.forall_mem_append, List.forall_mem_singleton, forall_mem_toList]
  exact ⟨⟨⟨⟨⟨⟨⟨forall_mem_least hi.y_pos, hi.z_pos⟩, forall_mem_least hi.lambda_pos⟩,
    forall_mem_least hi.mu_pos⟩, hi.zet_pos⟩, forall_mem_least hi.s_pos⟩, hi.xsi_pos⟩, hi.eta_pos⟩

lemma KktPoint.Interior.admissible (hi : w.Interior a) : w.Admissible a where
  contains := hi.contains
  y_nonneg i := (hi.y_pos i).le
  z_nonneg := hi.z_pos.le
  lambda_nonneg i := (hi.lambda_pos i).le
  xsi_nonneg j := (hi.xsi_pos j).le
  eta_nonneg j := (hi.eta_pos j).le
  mu_nonneg i := (hi.mu_pos i).le
  zet_nonneg := hi.zet_pos.le
  s_nonneg i := (hi.s_pos i).le

lemma Approximation.signedValues_ne_nil (w : KktPoint ℝ n m) : signedValues w ≠ [] := by
  unfold signedValues
  simp

/-- A step sees all signed variables of the point that it leads to, and says whether the residual norm grew. -/
lemma Approximation.interiorStep_reports (w : KktPoint ℝ n m) (s : Settings ℝ) (e : Execution)
    (residual : Residual ℝ) (epsi : ℝ) :
    (a.interiorStep wt s e w residual epsi).Ensures A fun next =>
      next.seen = signedValues next.state ∧
      next.exhausted = decide (residual.norm < next.residual.norm) :=
  Program.ensures_bind fun _ => Program.ensures_bind fun _ => Program.ensures_bind fun _ => ⟨rfl, rfl⟩

end Interior

/-- A solution whose multipliers and slacks have the right signs, those of the interior-point method
strictly, with a positive smallest multiplier on record unless no step was taken. -/
structure Solution.Signed (a : Approximation ℝ n m) (method : Method) (sol : Solution ℝ n m) : Prop where
  admissible : sol.point.Admissible a
  lambda_pos : ∀ i : Fin m, 0 < sol.point.lambda[i]
  interior : method = .primalDual → sol.point.Interior a
  minMultiplier_pos : ∀ v ∈ sol.diagnostics.minMultiplier, 0 < v
  recorded : sol.diagnostics.minMultiplier = none → sol.diagnostics.newtonIterations = 0

namespace Approximation

/-- Wherever a solve of the dual comes through, whatever replies it gets, all multipliers and the smallest
one on record are positive, and of a direction only the components along which a multiplier falls bound the
step. -/
def DualPositive (a : Approximation ℝ n m) (wt : Weights ℝ m) (s : Settings ℝ) : Prop :=
  ∀ start, (DualState.ofMultipliers a wt (Vector.replicate m DualState.initialLambda)
      (Vector.replicate m 1)).Ends .any (.done start) →
    ∀ epsi p, (dualMethod a wt s).Reached s.epsimin start .any epsi p →
      (∀ i : Fin m, 0 < p.state.lambda[i]) ∧ (∀ i : Fin m, 0 < p.state.eta[i]) ∧
      (∀ v ∈ p.diagnostics.minMultiplier, 0 < v) ∧
      ∀ (dlam deta : Vector ℝ m) (theta : ℝ), theta ≤ p.state.stepLength dlam deta ↔ theta ≤ 1 ∧
        (∀ i : Fin m, dlam[i] < 0 → theta ≤ -0.99 * p.state.lambda[i] / dlam[i]) ∧
        ∀ i : Fin m, deta[i] < 0 → theta ≤ -0.99 * p.state.eta[i] / deta[i]

/-- Wherever an interior-point solve comes through with the replies of a group, the point is interior, the
smallest multiplier on record is positive, and all trial points of the next step are interior, however often
the step is halved. -/
def InteriorPositive (a : Approximation ℝ n m) (wt : Weights ℝ m) (s : Settings ℝ) (e : Execution) :
    Prop :=
  ∀ epsi p, (a.interiorMethod wt s e).Reached s.epsimin (a.interiorStart wt) .fair epsi p →
    p.state.Interior a ∧ (∀ v ∈ p.diagnostics.minMultiplier, 0 < v) ∧
    ∀ dir inverse, (a.newtonDirection wt e p.state epsi).Ends .fair (.done dir) →
      (a.inverseStep p.state dir).Ends .fair (.done inverse) →
        ∀ k : Nat, (p.state.stepped dir (1 / inverse * 0.5 ^ k)).Interior a

lemma dualStart_positive : (DualState.ofMultipliers a wt (Vector.replicate m DualState.initialLambda)
    (Vector.replicate m 1)).Ensures A (DualState.Positive a wt) :=
  DualState.ofMultipliers_positive dualStart_pos.1 dualStart_pos.2

lemma dualMethod_keeps {start : DualState ℝ n m} (hs : start.Positive a wt) {epsi : ℝ}
    {p : Progress ℝ (DualState ℝ n m)} (h : (dualMethod a wt s).Reached s.epsimin start A epsi p) :
    p.state.Positive a wt ∧ ∀ v ∈ p.diagnostics.minMultiplier, 0 < v :=
  h.keeps hs fun _ _ epsi hi => hi.advance epsi

lemma interiorMethod_keeps (ha : a.WellPosed) {e : Execution} {epsi : ℝ} {p : Progress ℝ (KktPoint ℝ n m)}
    (h : (a.interiorMethod wt s e).Reached s.epsimin (a.interiorStart wt) .fair epsi p) :
    p.state.Interior a ∧ ∀ v ∈ p.diagnostics.minMultiplier, 0 < v := by
  refine h.keeps (interiorStart_interior ha) fun w r epsi hi => ?_
  refine ((interiorStep_ensures hi s e r epsi).and (interiorStep_reports w s e r epsi)).mono ?_
  rintro next ⟨hn, hseen, -⟩
  rw [hseen]
  exact ⟨hn, hn.signedValues_pos⟩

theorem dualPositive (a : Approximation ℝ n m) (wt : Weights ℝ m) (s : Settings ℝ) :
    a.DualPositive wt s := by
  intro start hstart epsi p hp
  obtain ⟨hk, hseen⟩ := dualMethod_keeps (dualStart_positive.of_ends hstart) hp
  exact ⟨hk.lambda_pos, hk.eta_pos, hseen,
    fun _ _ _ => DualState.le_stepLength_iff hk.lambda_pos hk.eta_pos⟩

theorem interiorPositive (ha : a.WellPosed) (wt : Weights ℝ m) (s : Settings ℝ) (e : Execution) :
    a.InteriorPositive wt s e := by
  intro epsi p hp
  obtain ⟨hi, hseen⟩ := interiorMethod_keeps ha hp
  exact ⟨hi, hseen, fun dir inverse _ hb => hi.halved ((inverseStep_ensures _ dir).of_ends hb)⟩

lemma solveDual_signed (ha : a.WellPosed) (hs : s.Valid) {e : Execution} {sol : Solution ℝ n m}
    (h : (a.solveDual wt s e).Ends A (.done sol)) : sol.Signed a .dualNewton := by
  unfold solveDual at h
  split at h
  · cases h
  · next hm =>
    obtain ⟨start, hstart, h⟩ := h.of_bind
    obtain ⟨out, hout, h⟩ := h.of_bind
    cases h
    obtain ⟨epsi, p, hp, rfl⟩ := BarrierMethod.reached_of_solve hs.epsimin_lt_one hout
    obtain ⟨hk, hseen⟩ := dualMethod_keeps (dualStart_positive.of_ends hstart) hp
    exact {
      admissible := hk.admissible ha
      lambda_pos := hk.lambda_pos
      interior := nofun
      minMultiplier_pos := hseen
      recorded := hp.recorded fun state _ epsi =>
        (state.advance_reports epsi).mono fun next hn =>
          hn.1 ▸ List.append_ne_nil_of_left_ne_nil (toList_least_ne_nil hm next.state.lambda) _ }

lemma solveInterior_signed (ha : a.WellPosed) (hs : s.Valid) {e : Execution} {sol : Solution ℝ n m}
    (h : (a.solveInterior wt s e).Ends .fair (.done sol)) : sol.Signed a .primalDual := by
  unfold solveInterior at h
  split at h
  · cases h
  · obtain ⟨out, hout, h⟩ := h.of_bind
    cases h
    obtain ⟨epsi, p, hp, rfl⟩ := BarrierMethod.reached_of_solve hs.epsimin_lt_one hout
    obtain ⟨hi, hseen⟩ := interiorMethod_keeps ha hp
    exact {
      admissible := hi.admissible
      lambda_pos := hi.lambda_pos
      interior := fun _ => hi
      minMultiplier_pos := hseen
      recorded := hp.recorded fun w r epsi =>
        (interiorStep_reports w s e r epsi).mono fun next hn => hn.1 ▸ signedValues_ne_nil next.state }

/-- Whatever a rank of a group ends a solve with has the right signs. -/
theorem solve_signed (ha : a.WellPosed) (hs : s.Valid) {e : Execution} {sol : Solution ℝ n m}
    (h : (a.solve wt s e).Ends .fair (.done sol)) : sol.Signed a s.method := by
  unfold solve at h
  cases hmethod : s.method with
  | dualNewton =>
    rw [hmethod] at h
    exact solveDual_signed ha hs h
  | primalDual =>
    rw [hmethod] at h
    exact solveInterior_signed ha hs h

lemma WellPosed.part (ha : a.WellPosed) {k : Nat} (ι : Fin k → Fin n) : (a.part ι).WellPosed := by
  unfold Approximation.part Asymptotes.part MoveLimits.part
  constructor <;> intro j <;> simp only [entry_pick]
  · exact ha.p0_pos (ι j)
  · exact ha.q0_pos (ι j)
  · exact ha.p_nonneg (ι j)
  · exact ha.q_nonneg (ι j)
  · exact ha.low_lt_alfa (ι j)
  · exact ha.alfa_lt_beta (ι j)
  · exact ha.beta_lt_upp (ι j)

variable {N R : Nat}

/-- However the variables are spread over the ranks, each of them comes through positive multipliers in a
solve of the dual, and comes through and tries interior points in an interior-point solve; and if there are
constraints, every rank ends with a solution whose multipliers and slacks have the right signs. -/
theorem solve_positive {a : Approximation ℝ N m} {draft : WeightDraft ℝ} (ha : a.WellPosed)
    (hw : draft.validate m = .ok wt) (hs : s.validate = .ok ()) (δ : Distribution N R) :
    (∀ r, (a.part (δ.place r)).DualPositive wt s) ∧
      (∀ r rounds, (a.part (δ.place r)).InteriorPositive wt s { ranks := R + 1, rounds }) ∧
      (1 ≤ m → ∃ rounds₀, ∀ rounds, rounds₀ ≤ rounds → ∃ sol : ∀ r, Solution ℝ (δ.size r) m,
        Program.outcomes (fun r => (a.part (δ.place r)).solve wt s { ranks := R + 1, rounds }) =
            some (List.ofFn fun r => .done ⟨r, sol r⟩) ∧
          ∀ r, (sol r).Signed (a.part (δ.place r)) s.method) := by
  have hv := (Settings.validate_eq_ok_iff s).1 hs
  have hw := (WeightDraft.validate_eq_ok_iff.1 hw).2
  refine ⟨fun r => dualPositive _ wt s, fun r rounds => interiorPositive (ha.part _) wt s _, fun hm => ?_⟩
  obtain ⟨rounds₀, hallows⟩ := hv.exists_allows
  obtain ⟨whole, hwhole⟩ := solve_ends ha hw (by omega) hv (hallows rounds₀ (le_refl _))
  refine ⟨rounds₀, fun rounds hr => ?_⟩
  obtain ⟨sol, hsol, -⟩ := (simulates_solve δ ha hw s rounds).outcomes_eq (hwhole rounds hr)
  have ends := Program.groupEnds_of_outcomes hsol
  exact ⟨sol, hsol, fun r => solve_signed (ha.part _) hv (ends.ends r)⟩

/-- One variable on the second of two ranks, of which the first has none. -/
theorem solve_positive_with_idle_rank :
    let δ : Distribution 1 1 := ⟨![0, 1], finSigmaFinEquiv.trans (finCongr (by decide))⟩
    (∀ r, ((sample 1).part (δ.place r)).DualPositive sampleWeights .default) ∧
      (∀ r rounds, ((sample 1).part (δ.place r)).InteriorPositive sampleWeights .default ⟨2, rounds⟩) ∧
      ∃ rounds₀, ∀ rounds, rounds₀ ≤ rounds → ∃ sol : ∀ r, Solution ℝ (δ.size r) 1,
        Program.outcomes (fun r => ((sample 1).part (δ.place r)).solve sampleWeights .default
            { ranks := 2, rounds }) = some (List.ofFn fun r => .done ⟨r, sol r⟩) ∧
          ∀ r, (sol r).Signed ((sample 1).part (δ.place r)) .dualNewton := by
  intro δ
  obtain ⟨dual, interior, ends⟩ :=
    solve_positive (sample_wellPosed 1) sampleWeights_validate Settings.validate_default δ
  exact ⟨dual, interior, ends (le_refl 1)⟩

end Approximation

end MovingAsymptotes
