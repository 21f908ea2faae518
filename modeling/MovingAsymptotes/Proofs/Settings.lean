import MovingAsymptotes.Proofs.Linear.Vector
import MovingAsymptotes.Weights

/-!
# Accepted settings and weights

What the checks of settings and of weights amount to over the reals: positive parameters, shares between
zero and one, caps that leave a solver at least one step, and positive divisors.

* `Settings.validate_eq_ok_iff`: the settings that are accepted.
* `WeightDraft.validate_eq_ok_iff`: the weights that are accepted.
* `Settings.validate_default`, `WeightDraft.validate_default`: the defaults are among them.
-/

namespace MovingAsymptotes

lemma requirePositive_eq_ok_iff {name : String} {a : ℝ} : requirePositive name a = .ok () ↔ 0 < a := by
  unfold requirePositive
  split
  · next h => exact iff_of_true rfl (isPositive_iff.1 h)
  · next h => exact iff_of_false nofun fun h' => h (isPositive_iff.2 h')

lemma requireUnitInterval_eq_ok_iff {name : String} {a : ℝ} :
    requireUnitInterval name a = .ok () ↔ 0 < a ∧ a < 1 := by
  unfold requireUnitInterval
  split
  · next h => exact iff_of_true rfl h
  · next h => exact iff_of_false nofun h

/-- A check that comes first has to pass. -/
lemma check_bind_eq_ok_iff {ε β : Type} {e : Except ε Unit} {f : Except ε β} {b : β} :
    (e >>= fun _ => f) = .ok b ↔ e = .ok () ∧ f = .ok b := by
  cases e with
  | error err => exact iff_of_false nofun fun h => nomatch h.1
  | ok u => exact ⟨fun h => ⟨rfl, h⟩, fun h => h.2⟩

/-- Parameters of the optimality-criteria update that are accepted. -/
structure CriteriaSettings.Valid (s : CriteriaSettings ℝ) : Prop where
  eta_pos : 0 < s.eta
  moveLimit_pos : 0 < s.moveLimit
  lambdaUpper_pos : 0 < s.lambdaUpper
  bracketTolerance_pos : 0 < s.bracketTolerance

/-- Parameters of a run that are accepted. -/
structure Settings.Valid (s : Settings ℝ) : Prop where
  asyinit_pos : 0 < s.asyinit
  asyincr_pos : 0 < s.asyincr
  asydecr_pos : 0 < s.asydecr
  albefa_pos : 0 < s.albefa
  albefa_lt_one : s.albefa < 1
  mmamove_pos : 0 < s.mmamove
  raa0_pos : 0 < s.raa0
  epsimin_pos : 0 < s.epsimin
  epsimin_lt_one : s.epsimin < 1
  dualMaxInner_ne : s.dualMaxInner ≠ 0
  primalDualMaxInner_ne : s.primalDualMaxInner ≠ 0
  oc : s.oc.Valid

theorem CriteriaSettings.validate_eq_ok_iff (s : CriteriaSettings ℝ) :
    s.validate = .ok () ↔ s.Valid := by
  unfold validate
  simp only [check_bind_eq_ok_iff, requirePositive_eq_ok_iff]
  exact ⟨fun ⟨h₁, h₂, h₃, h₄⟩ => ⟨h₁, h₂, h₃, h₄⟩, fun ⟨h₁, h₂, h₃, h₄⟩ => ⟨h₁, h₂, h₃, h₄⟩⟩

/-- The settings that are accepted. -/
theorem Settings.validate_eq_ok_iff (s : Settings ℝ) : s.validate = .ok () ↔ s.Valid := by
  unfold validate
  simp only [check_bind_eq_ok_iff, requirePositive_eq_ok_iff, requireUnitInterval_eq_ok_iff]
  split
  · next h =>
    refine iff_of_false (fun hs => ?_) fun hs => h.elim hs.dualMaxInner_ne hs.primalDualMaxInner_ne
    nomatch hs.2.2.2.2.2.2.2
  · next h =>
    obtain ⟨h₁, h₂⟩ := not_or.1 h
    rw [CriteriaSettings.validate_eq_ok_iff]
    constructor
    · rintro ⟨a, b, c, ⟨d, e⟩, f, g, ⟨i, j⟩, oc⟩
      exact ⟨a, b, c, d, e, f, g, i, j, h₁, h₂, oc⟩
    · rintro ⟨a, b, c, d, e, f, g, i, j, -, -, oc⟩
      exact ⟨a, b, c, ⟨d, e⟩, f, g, ⟨i, j⟩, oc⟩

/-- Some number of bisections is enough, and so is every larger one. -/
lemma CriteriaSettings.Valid.exists_rounds {s : CriteriaSettings ℝ} (hs : s.Valid) :
    ∃ rounds₀, ∀ rounds, rounds₀ ≤ rounds → s.lambdaUpper * 0.5 ^ rounds ≤ s.bracketTolerance := by
  obtain ⟨l, hl⟩ := exists_pow_lt_of_lt_one
    (div_pos hs.bracketTolerance_pos hs.lambdaUpper_pos) (show (0.5 : ℝ) < 1 by norm_num)
  refine ⟨l, fun rounds hr => ?_⟩
  have h : (0.5 : ℝ) ^ rounds ≤ 0.5 ^ l := pow_le_pow_of_le_one (by norm_num) (by norm_num) hr
  have hb := (lt_div_iff₀ hs.lambdaUpper_pos).1 (h.trans_lt hl)
  linarith

/-- A number of rounds that is enough for the loops of a solve and of the search for a multiplier. -/
structure Settings.Allows (s : Settings ℝ) (rounds : Nat) : Prop where
  barrier : 0.1 ^ rounds ≤ s.epsimin
  bracket : s.oc.lambdaUpper * 0.5 ^ rounds ≤ s.oc.bracketTolerance

/-- Some number of rounds is enough, and so is every larger one. -/
lemma Settings.Valid.exists_allows {s : Settings ℝ} (hs : s.Valid) :
    ∃ rounds₀, ∀ rounds, rounds₀ ≤ rounds → s.Allows rounds := by
  obtain ⟨k, hk⟩ := exists_pow_lt_of_lt_one hs.epsimin_pos (show (0.1 : ℝ) < 1 by norm_num)
  obtain ⟨l, hl⟩ := hs.oc.exists_rounds
  refine ⟨max k l, fun rounds hr => ⟨?_, hl rounds ((le_max_right k l).trans hr)⟩⟩
  have h : (0.1 : ℝ) ^ rounds ≤ 0.1 ^ k :=
    pow_le_pow_of_le_one (by norm_num) (by norm_num) ((le_max_left k l).trans hr)
  exact h.trans hk.le

/-- The usual settings are accepted. -/
theorem Settings.validate_default : (Settings.default : Settings ℝ).validate = .ok () := by
  rw [Settings.validate_eq_ok_iff]
  unfold Settings.default CriteriaSettings.default
  constructor <;> norm_num
  constructor <;> norm_num

/-- Weights that are accepted: those by which the closed forms of `y` and `z` divide are positive. -/
structure Weights.Valid {m : Nat} (w : Weights ℝ m) : Prop where
  b0_pos : 0 < w.b0
  d_pos : ∀ i : Fin m, 0 < w.d[i]

namespace WeightDraft

variable {m : Nat}

section General

variable {α : Type} [Scalar α] {w : WeightDraft α} {wt : Weights α m}

lemma firstBadEntry?_eq_none_iff : wt.firstBadEntry? = none ↔ ∀ i : Fin m, IsPositive wt.d[i] := by
  unfold Weights.firstBadEntry?
  rw [List.find?_eq_none]
  simp

/-- The weights that are accepted are those of the draft, with divisors that are positive and finite. -/
theorem validate_eq_ok_iff_positive :
    w.validate m = .ok wt ↔ w.sized m = .ok wt ∧ IsPositive wt.b0 ∧ ∀ i : Fin m, IsPositive wt.d[i] := by
  unfold validate
  cases hs : w.sized m with
  | error e => exact iff_of_false nofun fun h => nomatch h.1
  | ok s =>
    have hb : (requirePositive "b0" s.b0).mapError Cause.invalidSetting = .ok () ↔ IsPositive s.b0 := by
      unfold requirePositive
      split
      · next h => exact iff_of_true rfl h
      · next h => exact iff_of_false nofun h
    refine check_bind_eq_ok_iff.trans ?_
    rw [hb, Except.ok.injEq, ← firstBadEntry?_eq_none_iff]
    constructor
    · rintro ⟨h₁, h₂⟩
      cases hd : s.firstBadEntry? with
      | none =>
        rw [hd] at h₂
        cases h₂
        exact ⟨rfl, h₁, hd⟩
      | some i =>
        rw [hd] at h₂
        nomatch h₂
    · rintro ⟨rfl, h₁, h₂⟩
      rw [h₂]
      exact ⟨h₁, rfl⟩

end General

/-- The weights that are accepted, as the draft holds them. -/
theorem validate_eq_ok_iff {w : WeightDraft ℝ} {wt : Weights ℝ m} :
    w.validate m = .ok wt ↔ w.sized m = .ok wt ∧ wt.Valid := by
  rw [validate_eq_ok_iff_positive]
  simp only [isPositive_iff]
  exact and_congr_right fun _ => ⟨fun h => ⟨h.1, h.2⟩, fun h => ⟨h.b0_pos, h.d_pos⟩⟩

/-- The usual weights are accepted for the number of constraints they are meant for. -/
theorem validate_default (m : Nat) : ∃ wt, (default m : WeightDraft ℝ).validate m = .ok wt := by
  let wt : Weights ℝ m :=
    { a0 := 1, b0 := 1, a := Vector.replicate m 0, c := Vector.replicate m 1000.0,
      d := Vector.replicate m 1 }
  refine ⟨wt, validate_eq_ok_iff.2 ⟨sized_eq_ok_iff.2 rfl, ?_, fun i => ?_⟩⟩
  · exact one_pos
  · rw [entry_replicate]
    exact one_pos

end WeightDraft

end MovingAsymptotes
