import Mathlib
import MovingAsymptotes.Barrier
import MovingAsymptotes.Proofs.Exact
import MovingAsymptotes.Proofs.Reduction.Replies
import MovingAsymptotes.Proofs.Reduction.Serial

/-!
# Barrier descent over the reals

What holds of every barrier method on a single rank. A property of the state, the barrier parameter and
the residual on record is kept through a solve if it is established by the first residual, by every
Newton step and by every change of the parameter. The parameter goes down by powers of ten, so a solve
ends after finitely many levels, and what it ends with is the state of the last level.

* `BarrierMethod.Visited`: where a solve may come through.
* `BarrierMethod.Reached`: where it may come through if it gets other replies, with the record there.
* `reached_of_solve`: the state that a solve ends with is among those.
* `Maintains.of_visited`: what is maintained holds wherever a solve comes through.
* `Maintains.solve_ends`: a solve ends, with the state of its last level.
-/

namespace MovingAsymptotes.BarrierMethod

variable {σ : Type} (m : BarrierMethod ℝ σ) (epsimin : ℝ) (start : σ)

/-- Barrier parameter, state and residual on record wherever a solve may come through. The caps are left
out: a method with larger caps comes through more states. -/
inductive Visited : ℝ → σ → Residual ℝ → Prop where
  /-- The first level is entered. -/
  | enter {r} : (m.residual start 1).serial = .done r → Visited 1 start r
  /-- A Newton step is taken. -/
  | step {e s r next} : Visited e s r → r.Exceeds e → (m.advance s r e).serial = .done next →
    Visited e next.state next.residual
  /-- The next level is entered. -/
  | descend {e s r r'} : Visited e s r → epsimin < e * 0.1 → (m.residual s (e * 0.1)).serial = .done r' →
    Visited (e * 0.1) s r'

/-- Barrier parameter, state and record wherever a solve may come through if the replies to its reductions
are of some kind. -/
inductive Reached (A : Replies ℝ) : ℝ → Progress ℝ σ → Prop where
  /-- The first level is entered. -/
  | enter {r} : (m.residual start 1).Ends A (.done r) → Reached A 1 ⟨start, r, .initial⟩
  /-- A Newton step is taken. -/
  | step {e p next} : Reached A e p → p.residual.Exceeds e →
    (m.advance p.state p.residual e).Ends A (.done next) →
    Reached A e ⟨next.state, next.residual, p.diagnostics.afterStep next⟩
  /-- The next level is entered. -/
  | descend {e p r} : Reached A e p → epsimin < e * 0.1 →
    (m.residual p.state (e * 0.1)).Ends A (.done r) →
    Reached A (e * 0.1) ⟨p.state, r, p.diagnostics.afterLevel p.residual e⟩

section Adequacy

variable {m epsimin start} {A : Replies ℝ}

lemma reached_of_level {e : ℝ} {steps : Nat} {p p' : Progress ℝ σ} (hp : m.Reached epsimin start A e p)
    (h : (m.level e steps p).Ends A (.done p')) : m.Reached epsimin start A e p' := by
  induction steps generalizing p with
  | zero =>
    cases h
    exact hp
  | succ steps ih =>
    unfold level at h
    split at h
    · next hx =>
      obtain ⟨next, hn, h⟩ := h.of_bind
      exact ih (hp.step hx hn) h
    · cases h
      exact hp

/-- A descent ends where it starts, or at the end of a level. -/
lemma reached_of_levels {e : ℝ} {rounds : Nat} {s : σ} {d : Diagnostics ℝ} {out : σ × Diagnostics ℝ}
    (hs : epsimin < e → ∀ r, (m.residual s e).Ends A (.done r) → m.Reached epsimin start A e ⟨s, r, d⟩)
    (h : (m.levels epsimin rounds e s d).Ends A (.done out)) :
    (¬ epsimin < e ∧ out = (s, d)) ∨ ∃ e' p, m.Reached epsimin start A e' p ∧
      out = (p.state, p.diagnostics.afterLevel p.residual e') := by
  induction rounds generalizing e s d with
  | zero =>
    unfold levels at h
    split at h
    · cases h
    · next he =>
      cases h
      exact Or.inl ⟨he, rfl⟩
  | succ rounds ih =>
    unfold levels at h
    split at h
    · next he =>
      obtain ⟨r, hr, h⟩ := h.of_bind
      obtain ⟨p, hp, h⟩ := h.of_bind
      have hv := reached_of_level (hs he r hr) hp
      -- The descent goes on from the end of the level or stops there.
      rcases ih (fun he' r' hr' => hv.descend he' hr') h with ⟨-, hout⟩ | hout
      · exact Or.inr ⟨e, p, hv, hout⟩
      · exact Or.inr hout
    · next he =>
      cases h
      exact Or.inl ⟨he, rfl⟩

/-- A solve ends with a level that it has come through. -/
theorem reached_of_solve {rounds : Nat} {out : σ × Diagnostics ℝ} (h₁ : epsimin < 1)
    (h : (m.solve epsimin rounds start).Ends A (.done out)) :
    ∃ e p, m.Reached epsimin start A e p ∧ out = (p.state, p.diagnostics.afterLevel p.residual e) := by
  rcases reached_of_levels (fun _ r hr => .enter hr) h with ⟨hn, -⟩ | hout
  · exact absurd h₁ hn
  · exact hout

end Adequacy

/-- A property that every part of a solve establishes where it is needed, each part with a result. -/
structure Maintains (I : ℝ → σ → Residual ℝ → Prop) : Prop where
  enter : (m.residual start 1).Returns (I 1 start)
  step : ∀ {e s r}, I e s r → r.Exceeds e →
    (m.advance s r e).Returns fun next => I e next.state next.residual
  descend : ∀ {e s r}, I e s r → epsimin < e * 0.1 → (m.residual s (e * 0.1)).Returns (I (e * 0.1) s)

variable {m epsimin start} {I : ℝ → σ → Residual ℝ → Prop}

/-- What is maintained holds wherever a solve comes through. -/
theorem Maintains.of_visited (h : m.Maintains epsimin start I) {e : ℝ} {s : σ} {r : Residual ℝ}
    (hv : m.Visited epsimin start e s r) : I e s r := by
  induction hv with
  | enter hr => exact h.enter.of_serial hr
  | step _ hx hn ih => exact (h.step ih hx).of_serial hn
  | descend _ he hr ih => exact (h.descend ih he).of_serial hr

lemma Maintains.level_returns (h : m.Maintains epsimin start I) {e : ℝ} (steps : Nat)
    {p : Progress ℝ σ} (hp : I e p.state p.residual) :
    (m.level e steps p).Returns fun p' => I e p'.state p'.residual ∧
      p'.diagnostics.barrierLevels = p.diagnostics.barrierLevels ∧
      p'.diagnostics.cappedLevels = p.diagnostics.cappedLevels := by
  induction steps generalizing p with
  | zero => exact Program.returns_pure ⟨hp, rfl, rfl⟩
  | succ steps ih =>
    unfold level
    split
    · next hx => exact (h.step hp hx).bind fun next hn => ih hn
    · exact Program.returns_pure ⟨hp, rfl, rfl⟩

/-- A descent from the parameter `epsi` with the record `d` is over: the state is that of a last level
whose parameter still exceeds `epsimin`, and a tenth of it does not. -/
structure Ended (epsimin : ℝ) (I : ℝ → σ → Residual ℝ → Prop) (epsi : ℝ) (d : Diagnostics ℝ)
    (state : σ) (d' : Diagnostics ℝ) (e : ℝ) (r : Residual ℝ) : Prop where
  /-- The last parameter, by the number of levels. -/
  parameter : e = epsi * 0.1 ^ (d'.barrierLevels - 1 - d.barrierLevels)
  levels_lt : d.barrierLevels < d'.barrierLevels
  lt : epsimin < e
  le : e ≤ 10 * epsimin
  maintained : I e state r
  norm : d'.residualNorm = r.norm
  max : d'.residualMax = r.max
  capped_le : d.cappedLevels ≤ d'.cappedLevels
  /-- If no level was left on its cap, neither was the last. -/
  settled : d'.cappedLevels = d.cappedLevels → ¬ r.Exceeds e

/-- A descent ends with its first level if a tenth of the parameter is small enough. -/
lemma ended_afterLevel {e : ℝ} {d d' : Diagnostics ℝ} {p : σ} {r : Residual ℝ} (he : epsimin < e)
    (hl : ¬ epsimin < e * 0.1) (hi : I e p r) (hb : d'.barrierLevels = d.barrierLevels)
    (hc : d'.cappedLevels = d.cappedLevels) : Ended epsimin I e d p (d'.afterLevel r e) e r where
  parameter := by
    change e = e * 0.1 ^ (d'.barrierLevels + 1 - 1 - d.barrierLevels)
    rw [hb, Nat.add_sub_cancel, Nat.sub_self, pow_zero, mul_one]
  levels_lt := by
    change d.barrierLevels < d'.barrierLevels + 1
    omega
  lt := he
  le := by
    norm_num at hl
    linarith
  maintained := hi
  norm := rfl
  max := rfl
  capped_le := by
    change d.cappedLevels ≤ d'.cappedLevels + _
    omega
  settled := by
    intro h
    change d'.cappedLevels + (if r.Exceeds e then 1 else 0) = d.cappedLevels at h
    split at h
    · omega
    · assumption

/-- A level comes before a descent that ends. -/
lemma Ended.after_level {e e' : ℝ} {d d₁ d' : Diagnostics ℝ} {s : σ} {r r' : Residual ℝ}
    (hb : d₁.barrierLevels = d.barrierLevels) (hc : d₁.cappedLevels = d.cappedLevels)
    (h : Ended epsimin I (e * 0.1) (d₁.afterLevel r e) s d' e' r') : Ended epsimin I e d s d' e' r' := by
  have hl : d₁.barrierLevels + 1 < d'.barrierLevels := h.levels_lt
  have hle : d₁.cappedLevels + (if r.Exceeds e then 1 else 0) ≤ d'.cappedLevels := h.capped_le
  refine { h with parameter := ?_, levels_lt := by omega, capped_le := by omega, settled := ?_ }
  · have hk : d'.barrierLevels - 1 - d.barrierLevels =
        d'.barrierLevels - 1 - (d₁.barrierLevels + 1) + 1 := by omega
    rw [h.parameter, hk, pow_succ']
    change e * 0.1 * 0.1 ^ (d'.barrierLevels - 1 - (d₁.barrierLevels + 1)) = _
    ring
  · intro hd
    refine h.settled ?_
    change d'.cappedLevels = d₁.cappedLevels + (if r.Exceeds e then 1 else 0)
    omega

/-- A descent that starts low enough for `k` levels ends, however many more it may take. -/
lemma Maintains.levels_end (h : m.Maintains epsimin start I) (k : Nat) {epsi : ℝ} {s : σ}
    {d : Diagnostics ℝ} (hk : epsi * 0.1 ^ k ≤ epsimin)
    (hr : epsimin < epsi → (m.residual s epsi).Returns (I epsi s)) :
    ∃ out, (∀ rounds, k ≤ rounds → (m.levels epsimin rounds epsi s d).serial = .done out) ∧
      (epsimin < epsi → ∃ e r, Ended epsimin I epsi d out.1 out.2 e r) ∧
      (¬ epsimin < epsi → out = (s, d)) := by
  induction k generalizing epsi s d with
  | zero =>
    have he : ¬ epsimin < epsi := by
      rw [pow_zero, mul_one] at hk
      exact hk.not_gt
    refine ⟨(s, d), fun rounds _ => ?_, fun h => absurd h he, fun _ => rfl⟩
    cases rounds <;> exact congrArg Program.serial (if_neg he)
  | succ k ih =>
    by_cases he : epsimin < epsi
    · obtain ⟨r, hr, hi⟩ := hr he
      obtain ⟨p, hp, hi', hb, hc⟩ := h.level_returns m.cap (p := ⟨s, r, d⟩) hi
      have hk' : epsi * 0.1 * 0.1 ^ k ≤ epsimin := by
        rw [pow_succ'] at hk
        linarith
      obtain ⟨out, hout, hended, hsame⟩ := ih (d := p.diagnostics.afterLevel p.residual epsi) hk'
        fun hlt => h.descend hi' hlt
      -- After one level the parameter is low enough for one level less.
      refine ⟨out, fun rounds hrounds => ?_, fun _ => ?_, fun hn => absurd he hn⟩
      · obtain ⟨rounds, rfl⟩ : ∃ n, rounds = n + 1 := ⟨rounds - 1, by omega⟩
        unfold levels
        rw [if_pos he, Program.serial_bind, hr]
        change (m.level epsi m.cap ⟨s, r, d⟩ >>= _).serial = _
        rw [Program.serial_bind, hp]
        exact hout rounds (by omega)
      · by_cases hlt : epsimin < epsi * 0.1
        · obtain ⟨e, r', hE⟩ := hended hlt
          exact ⟨e, r', hE.after_level hb hc⟩
        · rw [hsame hlt]
          exact ⟨epsi, p.residual, ended_afterLevel he hlt hi' hb hc⟩
    · refine ⟨(s, d), fun rounds _ => ?_, fun h => absurd h he, fun _ => rfl⟩
      cases rounds <;> exact congrArg Program.serial (if_neg he)

/-- A solve ends once it may take enough levels, and then with the same state and record however many it
may take. -/
theorem Maintains.solve_ends (h : m.Maintains epsimin start I) (h₁ : epsimin < 1) {k : Nat}
    (hk : 0.1 ^ k ≤ epsimin) :
    ∃ state d e r, (∀ rounds, k ≤ rounds → (m.solve epsimin rounds start).serial = .done (state, d)) ∧
      Ended epsimin I 1 .initial state d e r := by
  obtain ⟨⟨state, d⟩, hout, hended, -⟩ := h.levels_end (d := .initial) k
    (show 1 * 0.1 ^ k ≤ epsimin by linarith) fun _ => h.enter
  obtain ⟨e, r, hE⟩ := hended h₁
  exact ⟨state, d, e, r, hout, hE⟩

end MovingAsymptotes.BarrierMethod
