import MovingAsymptotes.Proofs.Codec.Records
import MovingAsymptotes.Proofs.Diagnostics

/-!
# Storing the diagnostics of a solve

Before the first Newton step there is no smallest multiplier, and a record without one is not read back once
it is stored. Thus whether the record of a solve is read back depends on whether the solve takes a step. The
dual starts so far from its conditions that its first level does. The interior-point method starts from a point
whose complementarity is the one for the parameter `1`; if the other conditions nearly hold there too, the
first level takes no step, and there is no other level if the last parameter is at least a tenth.

* `InteriorCourse.unseen_iff`: the solves without a smallest multiplier.
* `Approximation.solve_read_back_iff`: the records of solves that are read back.
-/

namespace MovingAsymptotes

open BarrierMethod

/-- The cap on the Newton steps of a level, for the method in force. -/
def Settings.maxInner {α : Type} (s : Settings α) : Nat :=
  match s.method with
  | .dualNewton => s.dualMaxInner
  | .primalDual => s.primalDualMaxInner

lemma Settings.Valid.maxInner_ne {s : Settings ℝ} (hs : s.Valid) : s.maxInner ≠ 0 := by
  unfold Settings.maxInner
  cases s.method with
  | dualNewton => exact hs.dualMaxInner_ne
  | primalDual => exact hs.primalDualMaxInner_ne

/-- A record of real numbers is read back if its counters fit and a smallest multiplier was seen. -/
lemma Diagnostics.read_back_iff (d : Diagnostics ℝ) :
    decode? d.encode = some d ↔ d.CountersFit ∧ d.minMultiplier ≠ none := by
  rw [decode?_encode_iff, storedWhole_iff, Option.ne_none_iff_exists']
  exact and_congr_right fun _ => ⟨fun ⟨_, _, v, hv, _⟩ => ⟨v, hv⟩, fun ⟨v, hv⟩ => ⟨rfl, rfl, v, hv, rfl⟩⟩

section Course

variable {R : Nat} {σ : Fin (R + 1) → Type} {cap : Nat} {epsimin : ℝ} {levels : List (Level σ)}

/-- The counters fit if all the steps that the levels may take do. -/
lemma Diagnostics.Counts.countersFit {d : Diagnostics ℝ} (h : d.Counts cap epsimin levels) (hcap : cap ≠ 0)
    {k : Nat} (hk : (0.1 : ℝ) ^ k ≤ epsimin) (hsize : k * cap < UInt64.size) : d.CountersFit := by
  have levels_le : d.barrierLevels ≤ k := h.least.2 hk
  have steps : d.newtonIterations < UInt64.size :=
    (h.le_levels_mul.trans (Nat.mul_le_mul_right cap levels_le)).trans_lt hsize
  have scale (n : Nat) : n ≤ n * cap := Nat.le_mul_of_pos_right n (Nat.pos_of_ne_zero hcap)
  exact {
    barrierLevels := (levels_le.trans (scale k)).trans_lt hsize
    newtonIterations := steps
    cappedLevels := ((scale _).trans h.capped_mul_le).trans_lt steps
    exhaustedLineSearches := h.exhausted_le.trans_lt steps }

/-- A smallest multiplier is on record unless no step was taken. -/
lemma BarrierMethod.recordOf_minMultiplier_eq_none_iff {r : Fin (R + 1)}
    (sees : ∀ next ∈ levels.flatMap Level.steps, next.seen r ≠ []) :
    (recordOf levels r).minMultiplier = none ↔ levels.flatMap Level.steps = [] := by
  unfold recordOf
  rw [Level.foldl_record]
  refine Diagnostics.foldl_smallestSeen_eq_none_iff.trans ((and_iff_right rfl).trans ?_)
  rw [List.flatMap_eq_nil_iff, List.eq_nil_iff_forall_not_mem]
  exact forall₂_congr fun next hnext => iff_of_false (sees next hnext) not_false

end Course

namespace Approximation

variable {N R n m : Nat} {wt : Weights ℝ m} {s : Settings ℝ}

/-- For a small parameter the complementarity of the start is far off. -/
lemma interiorStart_exceeds (a : Approximation ℝ n m) (wt : Weights ℝ m) {e : ℝ} (he : 1.9 * e < 1) :
    (a.residualOf wt (a.interiorStart wt) e).Exceeds e := by
  refine not_le.1 fun hle => ?_
  have row : |1 * 1 - e| ≤ 0.9 * e := ((a.residualOf_max_le_iff wt _ e).1 hle).2.shared.commonSign
  have far := (le_abs_self _).trans row
  linarith

lemma measured_interiorStart (δ : Distribution N R) (a : Approximation ℝ N m) (e : Execution) (epsi : ℝ) :
    Measured (fun r => (a.part (δ.place r)).interiorMethod wt s e) epsi
      (fun r => (a.part (δ.place r)).interiorStart wt) (a.residualOf wt (a.interiorStart wt) epsi) := by
  obtain ⟨c, hc, same⟩ := (simulates_residual δ a wt (a.interiorStart wt) epsi).outcomes_eq (residual_serial ..)
  obtain rfl : c = fun _ => a.residualOf wt (a.interiorStart wt) epsi := funext same
  simp only [interiorStart_part]
  exact hc

/-- The ranks see no multiplier exactly if the start is good enough for the only level. -/
theorem InteriorCourse.unseen_iff {δ : Distribution N R} {a : Approximation ℝ N m} {e : Execution}
    {levels : List (Level fun r => KktPoint ℝ (δ.size r) m)} {sol : ∀ r, Solution ℝ (δ.size r) m}
    (h : InteriorCourse (fun r => a.part (δ.place r)) wt s e levels sol) (hs : s.Valid) (r : Fin (R + 1)) :
    (sol r).diagnostics.minMultiplier = none ↔
      0.1 ≤ s.epsimin ∧ ¬ (a.residualOf wt (a.interiorStart wt) 1).Exceeds 1 := by
  have hd := h.1
  have sees := hd.forall_steps fun _ _ _ _ hstep => (InteriorCourse.reports hstep r).1
  rw [h.2 r, recordOf_minMultiplier_eq_none_iff fun next hnext => sees next hnext ▸ signedValues_ne_nil _,
    hd.steps_eq_nil_iff hs.primalDualMaxInner_ne (measured_interiorStart δ a e)]
  have least := hd.isLeast_length
  simp only [one_mul] at least ⊢
  have entered {k : Nat} (hk : s.epsimin < 0.1 ^ k) : k < levels.length :=
    (pow_lt_pow_iff_right_of_lt_one₀ (by norm_num) (by norm_num)).1 (least.1.trans_lt hk)
  constructor
  · intro settled
    refine ⟨not_lt.1 fun hlt => ?_, ?_⟩
    · exact settled 1 (entered (by simpa using hlt)) (a.interiorStart_exceeds wt (by norm_num))
    · simpa using settled 0 (entered (by simpa using hs.epsimin_lt_one))
  · rintro ⟨htenth, settled⟩ k hk
    have single : levels.length ≤ 1 := least.2 (by simpa using htenth)
    obtain rfl : k = 0 := by omega
    simpa using settled

end Approximation

namespace Approximation

variable {N R m : Nat} {a : Approximation ℝ N m} {wt : Weights ℝ m} {s : Settings ℝ}

/-- However the variables are spread over the ranks, each rank comes to a solution. If the steps that the
levels may take can be counted, so can those on record. The stored record of a rank is read back exactly if its
counters fit and a step was taken; the only solves that take none are those by the interior-point method with a
last parameter of at least a tenth and a start that is good enough for the parameter `1`. Their records are not
read back at all. -/
theorem solve_read_back_iff {draft : WeightDraft ℝ} (ha : a.WellPosed) (hw : draft.validate m = .ok wt)
    (hs : s.validate = .ok ()) (hm : 1 ≤ m) (δ : Distribution N R) :
    ∃ rounds₀, ∀ rounds, rounds₀ ≤ rounds → ∃ sol : ∀ r, Solution ℝ (δ.size r) m,
      Program.outcomes (fun r => (a.part (δ.place r)).solve wt s { ranks := R + 1, rounds }) =
          some (List.ofFn fun r => .done ⟨r, sol r⟩) ∧
        ∀ r, let d := (sol r).diagnostics
          (∀ k, (0.1 : ℝ) ^ k ≤ s.epsimin → k * s.maxInner < UInt64.size → d.CountersFit) ∧
          (Diagnostics.decode? d.encode = some d ↔ d.CountersFit ∧ ¬ a.SettledAtStart wt s) ∧
          (a.SettledAtStart wt s → Diagnostics.decode? d.encode = none) := by
  have hv := (Settings.validate_eq_ok_iff s).1 hs
  have hw := (WeightDraft.validate_eq_ok_iff.1 hw).2
  have hm : m ≠ 0 := by omega
  -- All that matters of a record is what it counts and whether it has a smallest multiplier.
  have storing {σ : Fin (R + 1) → Type} {levels : List (Level σ)} {d : Diagnostics ℝ}
      (counts : d.Counts s.maxInner s.epsimin levels)
      (unseen : d.minMultiplier = none ↔ a.SettledAtStart wt s) :
      (∀ k, (0.1 : ℝ) ^ k ≤ s.epsimin → k * s.maxInner < UInt64.size → d.CountersFit) ∧
        (Diagnostics.decode? d.encode = some d ↔ d.CountersFit ∧ ¬ a.SettledAtStart wt s) ∧
        (a.SettledAtStart wt s → Diagnostics.decode? d.encode = none) := by
    refine ⟨fun k hk hsize => counts.countersFit hv.maxInner_ne hk hsize, ?_, fun h => ?_⟩
    · rw [d.read_back_iff, Ne, unseen]
    · exact Diagnostics.decode?_encode_of_unseen (unseen.2 h)
  obtain ⟨rounds₀, hallows⟩ := hv.exists_allows
  refine ⟨rounds₀, fun rounds hr => ?_⟩
  unfold solve
  cases hmethod : s.method with
  | primalDual =>
    obtain ⟨w, d, -, -, hends, -⟩ := solveInterior_ends ha hw hm hv (hallows rounds₀ (le_refl _))
    obtain ⟨sol, hsol, -, levels, course⟩ := (simulates_solveInterior δ ha hw s rounds).outcomes_eq
      (hends rounds hr)
    have cap : s.maxInner = s.primalDualMaxInner := by rw [Settings.maxInner, hmethod]
    refine ⟨sol, hsol, fun r => storing (cap ▸ (course.diagnosed hv).counts r) ?_⟩
    exact (course.unseen_iff hv r).trans (and_iff_right hmethod).symm
  | dualNewton =>
    obtain ⟨state, d, -, -, hends, -⟩ := solveDual_ends ha hw hm hv (hallows rounds₀ (le_refl _))
    obtain ⟨sol, hsol, -, levels, course⟩ := (simulates_solveDual δ ha hw s rounds).outcomes_eq
      (hends rounds hr)
    have cap : s.maxInner = s.dualMaxInner := by rw [Settings.maxInner, hmethod]
    have diagnosed := course.diagnosed hm hv
    refine ⟨sol, hsol, fun r => storing (cap ▸ diagnosed.counts r) (iff_of_false ?_ ?_)⟩
    · obtain ⟨v, seen, -⟩ := diagnosed.minMultiplier r
      rw [seen]
      exact Option.some_ne_none v
    · exact fun h => nomatch hmethod.symm.trans h.1

/-- With the usual parameters the interior-point method takes a step, also if one of two ranks is idle. -/
theorem solve_read_back_with_idle_rank :
    let δ : Distribution 1 1 := ⟨![0, 1], finSigmaFinEquiv.trans (finCongr (by decide))⟩
    let s : Settings ℝ := { Settings.default with method := .primalDual }
    ∃ rounds₀, ∀ rounds, rounds₀ ≤ rounds → ∃ sol : ∀ r, Solution ℝ (δ.size r) 1,
      Program.outcomes (fun r => ((sample 1).part (δ.place r)).solve sampleWeights s
          { ranks := 2, rounds }) = some (List.ofFn fun r => .done ⟨r, sol r⟩) ∧
        ∀ r, Diagnostics.decode? (sol r).diagnostics.encode = some (sol r).diagnostics := by
  intro δ s
  obtain ⟨rounds₀, h⟩ := solve_read_back_iff (s := s) (sample_wellPosed 1) sampleWeights_validate
    Settings.validate_default (le_refl 1) δ
  refine ⟨rounds₀, fun rounds hr => ?_⟩
  obtain ⟨sol, hsol, stored⟩ := h rounds hr
  refine ⟨sol, hsol, fun r => ?_⟩
  obtain ⟨fit, iff, -⟩ := stored r
  refine iff.2 ⟨fit 7 ?_ ?_, fun settled => ?_⟩
  · show (0.1 : ℝ) ^ 7 ≤ 1e-7
    norm_num
  · show 7 * 200 < UInt64.size
    decide
  · have large : (0.1 : ℝ) ≤ 1e-7 := settled.2.1
    norm_num at large

/-- A solve whose start is good enough for its only level: it ends well, but its record is not read back. -/
theorem sample_not_read_back :
    (sample (3 / 2)).WellPosed ∧ (⟨1, 1, #[0], #[1], #[1]⟩ : WeightDraft ℝ).validate 1 = .ok mildWeights ∧
      singleLevel.validate = .ok () ∧
        ∃ sol, (∀ rounds, 1 ≤ rounds →
            ((sample (3 / 2)).solve mildWeights singleLevel (.single rounds)).serial = .done sol) ∧
          Diagnostics.decode? sol.diagnostics.encode = none := by
  exact ⟨sample_wellPosed _, mildWeights_validate, singleLevel_validate, _, fun _ => sample_solve,
    Diagnostics.decode?_encode_of_unseen rfl⟩

end Approximation

end MovingAsymptotes
