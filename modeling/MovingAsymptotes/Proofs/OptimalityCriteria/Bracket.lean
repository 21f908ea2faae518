import MovingAsymptotes.Proofs.Confinement

/-!
# The bracket of the multiplier

A search keeps the upper end of its bracket at a multiplier whose candidate meets the linearised constraint,
and the lower end at zero or at one whose candidate violates it. The last multiplier tried is one of the two
ends, and the candidate at hand is its own. With every bisection the bracket is half as wide, so the number
of bisections is the least that the tolerance asks for. None of this asks anything of the power that makes up
the candidates.

Where the constraint grows with every variable and the power with its base, a larger multiplier makes for a
smaller candidate and a smaller value. Then the multipliers whose candidates meet the constraint are those from
some threshold on, and the bracket holds the threshold.

* `CriteriaProblem.Brackets`: what a search keeps.
* `CriteriaProblem.Brackets.halves`, `CriteriaProblem.Brackets.run`: one bisection, and the whole search.
* `CriteriaProblem.candidateWith_antitone`: candidates in the multiplier.
* `CriteriaProblem.step_localises_multiplier`: what an update finds.
-/

namespace MovingAsymptotes.CriteriaProblem

variable {n : Nat} {p : CriteriaProblem ℝ n} {power : ℝ → ℝ → ℝ} {s : CriteriaSettings ℝ}

variable (p power s) in
/-- The candidate for a multiplier meets the linearised constraint. -/
def MeetsAt (lambda : ℝ) : Prop := p.linearised (p.candidateWith power s (p.window s) lambda) ≤ 0

variable (p power s) in
/-- A bracket whose upper end meets the constraint and whose lower end does not, with the last multiplier
tried and its candidate, after some bisections that were all needed. -/
structure Brackets (b : Bracket ℝ n) : Prop where
  lo_nonneg : 0 ≤ b.lo
  lo_le : b.lo ≤ b.multiplier
  le_hi : b.multiplier ≤ b.hi
  hi_le : b.hi ≤ s.lambdaUpper
  meets : p.MeetsAt power s b.hi
  violates : b.lo = 0 ∨ ¬ p.MeetsAt power s b.lo
  design : b.x = p.candidateWith power s (p.window s) b.multiplier
  width : b.hi - b.lo = s.lambdaUpper / 2 ^ b.bisections
  needed : ∀ k < b.bisections, s.bracketTolerance < s.lambdaUpper / 2 ^ k

namespace Brackets

variable {b next found : Bracket ℝ n}

lemma start (hs : s.Valid) (h : p.MeetsAt power s s.lambdaUpper) :
    p.Brackets power s (p.startWith power s) where
  lo_nonneg := le_refl 0
  lo_le := hs.lambdaUpper_pos.le
  le_hi := le_refl s.lambdaUpper
  hi_le := le_refl s.lambdaUpper
  meets := h
  violates := .inl rfl
  design := rfl
  width := by
    show s.lambdaUpper - 0 = s.lambdaUpper / 2 ^ 0
    rw [sub_zero, pow_zero, div_one]
  needed := nofun

lemma lo_lt_hi (h : p.Brackets power s b) (hs : s.Valid) : b.lo < b.hi := by
  have width : 0 < b.hi - b.lo := by
    rw [h.width]
    exact div_pos hs.lambdaUpper_pos (by positivity)
  exact sub_pos.1 width

/-- A bisection of a bracket that is too wide leaves a bracket. -/
lemma halves (h : p.Brackets power s b) (wide : s.bracketTolerance < b.hi - b.lo) (hs : s.Valid)
    (hn : p.Halves power s (p.window s) b next) : p.Brackets power s next := by
  have between := h.lo_lt_hi hs
  have width : next.hi - next.lo = s.lambdaUpper / 2 ^ (b.bisections + 1) := by
    rw [hn.width, h.width, pow_succ, div_div]
  have needed : ∀ k < b.bisections + 1, s.bracketTolerance < s.lambdaUpper / 2 ^ k := by
    intro k hk
    rcases Nat.lt_succ_iff_lt_or_eq.1 hk with earlier | rfl
    · exact h.needed k earlier
    · rwa [← h.width]
  cases hn with
  | violated middle hm hv =>
    have above : b.lo ≤ middle := by linarith
    have below : middle ≤ b.hi := by linarith
    exact ⟨h.lo_nonneg.trans above, le_refl middle, below, h.hi_le, h.meets, .inr hv.not_ge, rfl, width, needed⟩
  | met middle hm hv =>
    have above : b.lo ≤ middle := by linarith
    have below : middle ≤ b.hi := by linarith
    exact ⟨h.lo_nonneg, above, le_refl middle, below.trans h.hi_le, hv, h.violates, rfl, width, needed⟩

/-- A search that ends leaves a bracket within the tolerance. -/
lemma run (h : p.Brackets power s b) (hs : s.Valid) {rounds : Nat}
    (hf : (p.bisectWith power s (p.window s) rounds b).serial = .done found) :
    p.Brackets power s found ∧ found.hi - found.lo ≤ s.bracketTolerance :=
  p.bisectWith_keeps power s (p.window s) (fun _ _ hb wide halved => hb.halves wide hs halved) h hf

/-- No fewer bisections would do. -/
lemma isLeast (h : p.Brackets power s b) (narrow : b.hi - b.lo ≤ s.bracketTolerance) :
    IsLeast {k | s.lambdaUpper / 2 ^ k ≤ s.bracketTolerance} b.bisections := by
  refine ⟨?_, fun k hk => ?_⟩
  · rwa [h.width] at narrow
  · by_contra fewer
    exact (h.needed k (not_le.1 fewer)).not_ge hk

end Brackets

variable (p power s) in
/-- The point that a candidate is clipped from. -/
noncomputable def scaledWith (lambda : ℝ) (j : Fin n) : ℝ :=
  p.bounds.lower[j] + (p.x[j] - p.bounds.lower[j]) * power |-p.dfdx[j] / (lambda * p.dgdx[j])| s.eta

variable (power) in
lemma entry_candidateWith (limits : MoveLimits ℝ n) (lambda : ℝ) (j : Fin n) :
    (p.candidateWith power s limits lambda)[j] =
      max (min (p.scaledWith power s lambda j) limits.beta[j]) limits.alfa[j] := by
  rw [← clamp_eq]
  exact entry_ofFn _ j

/-- A multiplier that outweighs the slope of the objective does not raise a variable. -/
lemma candidateWith_le (hb : p.bounds.Proper) (hx : p.bounds.Contains p.x) (hs : s.Valid) {lambda : ℝ} {j : Fin n}
    (hratio : |-p.dfdx[j] / (lambda * p.dgdx[j])| ≤ 1) :
    (p.candidateWith (· ^ ·) s (p.window s) lambda)[j] ≤ p.x[j] := by
  have power : |-p.dfdx[j] / (lambda * p.dgdx[j])| ^ s.eta ≤ 1 :=
    Real.rpow_le_one (abs_nonneg _) hratio hs.eta_pos.le
  have scaled : p.scaledWith (· ^ ·) s lambda j ≤ p.x[j] := by
    have offset := mul_le_mul_of_nonneg_left power (sub_nonneg.2 (hx j).1)
    unfold scaledWith
    linarith
  rw [entry_candidateWith]
  exact max_le ((min_le_left _ _).trans scaled) (window_contains hb hx hs j).1

section Threshold

variable (hx : p.bounds.Contains p.x) (hpower : MonotoneOn (power · s.eta) (Set.Ici 0))
include hx hpower

/-- A larger multiplier makes for a smaller candidate. -/
lemma candidateWith_antitone {l l' : ℝ} (hl : 0 < l) (hle : l ≤ l') (limits : MoveLimits ℝ n) (j : Fin n) :
    (p.candidateWith power s limits l')[j] ≤ (p.candidateWith power s limits l)[j] := by
  have ratio : |-p.dfdx[j] / (l' * p.dgdx[j])| ≤ |-p.dfdx[j] / (l * p.dgdx[j])| := by
    simp only [abs_div, abs_mul, abs_of_pos hl, abs_of_pos (hl.trans_le hle)]
    rcases (abs_nonneg p.dgdx[j]).eq_or_lt with zero | pos
    · rw [← zero, mul_zero, mul_zero]
    · gcongr
  have scaled : p.scaledWith power s l' j ≤ p.scaledWith power s l j := by
    have powers := hpower (Set.mem_Ici.2 (abs_nonneg _)) (Set.mem_Ici.2 (abs_nonneg _)) ratio
    have offset := sub_nonneg.2 (hx j).1
    exact add_le_add_right (mul_le_mul_of_nonneg_left powers offset) _
  rw [entry_candidateWith, entry_candidateWith]
  exact max_le_max_right _ (min_le_min_right _ scaled)

variable (hd : ∀ j : Fin n, 0 < p.dgdx[j])
include hd

/-- Where the constraint grows with every variable, a larger multiplier makes for a smaller value. -/
lemma MeetsAt.of_le {l l' : ℝ} (h : p.MeetsAt power s l) (hl : 0 < l) (hle : l ≤ l') :
    p.MeetsAt power s l' := by
  refine le_trans ?_ h
  refine add_le_add_right (Finset.sum_le_sum fun j _ => ?_) p.g
  have moved := candidateWith_antitone hx hpower hl hle (p.window s) j
  exact mul_le_mul_of_nonneg_left (sub_le_sub_right moved _) (hd j).le

/-- The threshold lies within the bracket. -/
lemma Brackets.threshold {b : Bracket ℝ n} (h : p.Brackets power s b) (hs : s.Valid) :
    b.lo ≤ sInf {l | 0 < l ∧ l ≤ s.lambdaUpper ∧ p.MeetsAt power s l} ∧
      sInf {l | 0 < l ∧ l ≤ s.lambdaUpper ∧ p.MeetsAt power s l} ≤ b.hi := by
  have hi_pos : 0 < b.hi := h.lo_nonneg.trans_lt (h.lo_lt_hi hs)
  have hi_mem : b.hi ∈ {l | 0 < l ∧ l ≤ s.lambdaUpper ∧ p.MeetsAt power s l} := ⟨hi_pos, h.hi_le, h.meets⟩
  refine ⟨le_csInf ⟨_, hi_mem⟩ ?_, csInf_le ⟨0, fun l hl => hl.1.le⟩ hi_mem⟩
  rintro l ⟨pos, -, meets⟩
  rcases h.violates with zero | violates
  · exact zero ▸ pos.le
  · by_contra below
    exact violates (meets.of_le hx hpower hd pos (not_le.1 below).le)

end Threshold

/-- What a step that found a bracket comes from. -/
lemma step_brackets (hs : s.Valid) {rounds : Nat} {step : CriteriaStep ℝ n}
    (hstep : (p.stepWith power s rounds).serial = .done step) (bracketed : step.bracketed = true) :
    ∃ b, p.Brackets power s b ∧ b.hi - b.lo ≤ s.bracketTolerance ∧
      step = ⟨b.x, p.window s, b.multiplier, b.bisections, true⟩ := by
  obtain ⟨met, b, search, rfl⟩ := p.stepWith_search power s hstep bracketed
  obtain ⟨hb, narrow⟩ := (Brackets.start hs met).run hs search
  exact ⟨b, hb, narrow, rfl⟩

variable (power) in
/-- An update ends. If it finds a bracket, it takes as few bisections as the tolerance allows, and its design is
the candidate of a multiplier between two ends no farther apart than the tolerance: the upper one meets the
linearised constraint, the lower one is zero or violates it. If the constraint grows with every variable, all
multipliers above meet it and all below violate it, so the multiplier is as close to the threshold. -/
theorem step_localises_multiplier (hx : p.bounds.Contains p.x) (hs : s.Valid)
    (hpower : MonotoneOn (power · s.eta) (Set.Ici 0)) :
    (∃ rounds₀ outcome, outcome ≠ .unfinished ∧
      ∀ rounds, rounds₀ ≤ rounds → (p.stepWith power s rounds).serial = outcome) ∧
    ∀ rounds step, (p.stepWith power s rounds).serial = .done step → step.bracketed = true →
      IsLeast {k | s.lambdaUpper / 2 ^ k ≤ s.bracketTolerance} step.bisections ∧
      step.x = p.candidateWith power s (p.window s) step.multiplier ∧
      ∃ lo hi, 0 ≤ lo ∧ lo ≤ step.multiplier ∧ step.multiplier ≤ hi ∧ hi ≤ s.lambdaUpper ∧
        hi - lo ≤ s.bracketTolerance ∧ p.MeetsAt power s hi ∧ (lo = 0 ∨ ¬ p.MeetsAt power s lo) ∧
        ((∀ j : Fin n, 0 < p.dgdx[j]) →
          (∀ l, hi ≤ l → l ≤ s.lambdaUpper → p.MeetsAt power s l) ∧
          (∀ l, 0 < l → l ≤ lo → ¬ p.MeetsAt power s l) ∧
          |step.multiplier - sInf {l | 0 < l ∧ l ≤ s.lambdaUpper ∧ p.MeetsAt power s l}| ≤
            s.bracketTolerance) := by
  constructor
  · obtain ⟨rounds₀, enough⟩ := hs.exists_rounds
    rcases p.stepWith_ends power s (enough rounds₀ (le_refl rounds₀)) with ⟨step, ends⟩ | ⟨violation, ends⟩
    · exact ⟨rounds₀, .done step, nofun, ends⟩
    · exact ⟨rounds₀, .failed (.unbracketedMultiplier s.lambdaUpper violation), nofun, ends⟩
  · intro rounds step hstep bracketed
    obtain ⟨b, hb, narrow, rfl⟩ := step_brackets hs hstep bracketed
    refine ⟨hb.isLeast narrow, hb.design, b.lo, b.hi, hb.lo_nonneg, hb.lo_le, hb.le_hi, hb.hi_le, narrow,
      hb.meets, hb.violates, fun hd => ⟨fun l above _ => ?_, fun l pos below => ?_, ?_⟩⟩
    · exact hb.meets.of_le hx hpower hd (hb.lo_nonneg.trans_lt (hb.lo_lt_hi hs)) above
    · rcases hb.violates with zero | violates
      · exact absurd (zero ▸ below) pos.not_ge
      · exact fun meets => violates (meets.of_le hx hpower hd pos below)
    · obtain ⟨above, below⟩ := hb.threshold hx hpower hd hs
      have lower := hb.lo_le
      have upper := hb.le_hi
      exact abs_le.2 ⟨by linarith, by linarith⟩

/-- One variable in the middle of its bounds that a constraint with some slack lets rise to `0.6`. -/
noncomputable def slack : CriteriaProblem ℝ 1 where
  x := .singleton 0.5
  bounds := ⟨.singleton 0, .singleton 1⟩
  dfdx := .singleton (-1)
  g := -0.1
  dgdx := .singleton 1

lemma slack_contains : slack.bounds.Contains slack.x := by
  intro j
  rw [Fin.eq_zero j]
  show (0 : ℝ) ≤ 0.5 ∧ (0.5 : ℝ) ≤ 1
  norm_num

lemma default_valid : (CriteriaSettings.default : CriteriaSettings ℝ).Valid :=
  ((Settings.validate_eq_ok_iff _).1 Settings.validate_default).oc

lemma slack_meets : slack.MeetsAt (· ^ ·) .default 1e6 := by
  have proper : slack.bounds.Proper := by
    intro j
    rw [Fin.eq_zero j]
    exact one_pos
  have ratio : |-(-1 : ℝ) / (1e6 * 1)| ≤ 1 := by
    rw [abs_of_pos] <;> norm_num
  have lowered : _ ≤ (0.5 : ℝ) := candidateWith_le (j := 0) proper slack_contains default_valid ratio
  unfold MeetsAt linearised
  rw [Fin.sum_univ_one]
  show (-0.1 : ℝ) + 1 * (_ - 0.5) ≤ 0
  linarith

/-- With the usual settings the multiplier of `slack` is found. -/
theorem step_localises_slack : ∃ rounds step, (slack.step .default rounds).serial = .done step ∧
    step.bracketed = true ∧
    |step.multiplier - sInf {l | 0 < l ∧ l ≤ 1e6 ∧ slack.MeetsAt (· ^ ·) .default l}| ≤ 1e-4 := by
  have increasing : MonotoneOn (fun t : ℝ => t ^ (0.5 : ℝ)) (Set.Ici 0) :=
    Real.monotoneOn_rpow_Ici_of_exponent_nonneg (by norm_num)
  obtain ⟨-, localised⟩ := step_localises_multiplier (· ^ ·) slack_contains default_valid increasing
  obtain ⟨rounds, enough⟩ := default_valid.exists_rounds
  obtain ⟨found, hf⟩ := slack.bisectWith_ends (· ^ ·) .default (slack.window .default) rounds
    (slack.startWith (· ^ ·) .default) (by
      show ((1e6 : ℝ) - 0) * 0.5 ^ rounds ≤ 1e-4
      rw [sub_zero]
      exact enough rounds (le_refl rounds))
  have run := slack.stepWith_bracketed (· ^ ·) .default rounds slack_meets
  rw [hf] at run
  obtain ⟨-, -, lo, hi, -, -, -, -, -, -, -, threshold⟩ := localised rounds _ run rfl
  have rising : ∀ j : Fin 1, 0 < slack.dgdx[j] := by
    intro j
    rw [Fin.eq_zero j]
    exact one_pos
  exact ⟨rounds, _, run, rfl, (threshold rising).2.2⟩

end MovingAsymptotes.CriteriaProblem
