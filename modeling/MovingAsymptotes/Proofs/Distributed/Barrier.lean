import MovingAsymptotes.Proofs.Barrier
import MovingAsymptotes.Proofs.Barrier.Course
import MovingAsymptotes.Proofs.Reduction.Distribution

/-!
# Distributed barrier descent

A group of ranks descends as a single rank does if every residual and every Newton step is simulated:
all ranks see the same residuals and so leave a level, a line search or the descent together. Only the
smallest multiplier on record may differ, since each rank sees the multipliers of its own variables. On the
way the group goes through a course of levels, and the record of each rank is the one of that course.

* `BarrierMethod.FollowedBy`: what makes the ranks follow a method.
* `FollowedBy.simulates_solve`: a solve.
-/

namespace MovingAsymptotes

/-- The record with another smallest multiplier. -/
def Diagnostics.withSeen {α : Type} (d : Diagnostics α) (seen : Option α) : Diagnostics α :=
  { d with minMultiplier := seen }

namespace BarrierMethod

variable {R : Nat} {σ : Type} {σ' : Fin (R + 1) → Type}

/-- The methods of the ranks follow the method of a single rank: from what is maintained on the single
rank they get to the parts of the states that it gets to. -/
structure FollowedBy (m : BarrierMethod ℝ σ) (m' : ∀ r, BarrierMethod ℝ (σ' r)) (part : ∀ r, σ → σ' r)
    (I : ℝ → σ → Residual ℝ → Prop) : Prop where
  cap : ∀ r, (m' r).cap = m.cap
  residual : ∀ s e, Program.Simulates (m.residual s e) (fun r => (m' r).residual (part r s) e)
    fun b c => ∀ r, c r = b
  advance : ∀ {e s res}, I e s res →
    Program.Simulates (m.advance s res e) (fun r => (m' r).advance (part r s) res e)
      fun next c => ∀ r, (c r).state = part r next.state ∧ (c r).residual = next.residual ∧
        (c r).exhausted = next.exhausted
  /-- The residual on record is that of the state. -/
  recorded : ∀ {e s res}, I e s res → (m.residual s e).serial = .done res

variable {m : BarrierMethod ℝ σ} {m' : ∀ r, BarrierMethod ℝ (σ' r)} {part : ∀ r, σ → σ' r}
  {I : ℝ → σ → Residual ℝ → Prop} {epsimin : ℝ} {start : σ}

/-- The part of a progress, with a smallest multiplier of its own. -/
def progressPart (part : ∀ r, σ → σ' r) (p : Progress ℝ σ) (seen : Fin (R + 1) → Option ℝ)
    (r : Fin (R + 1)) : Progress ℝ (σ' r) where
  state := part r p.state
  residual := p.residual
  diagnostics := p.diagnostics.withSeen (seen r)

/-- The ranks find the residual that the single rank has on record. -/
lemma FollowedBy.measured (h : m.FollowedBy m' part I) {e : ℝ} {s : σ} {res : Residual ℝ} (hi : I e s res) :
    Measured m' e (fun r => part r s) res := by
  obtain ⟨c, hc, same⟩ := (h.residual s e).outcomes_eq (h.recorded hi)
  rwa [funext same] at hc

/-- The ranks take a step together where the single rank takes one. -/
lemma FollowedBy.stepped (h : m.FollowedBy m' part I) {e : ℝ} {s : σ} {res : Residual ℝ} (hi : I e s res) :
    Program.Simulates (m.advance s res e) (fun r => (m' r).advance (part r s) res e)
      fun next c => ∃ joint : JointStep σ', c = joint.own ∧ Stepped m' e (fun r => part r s) res joint ∧
        joint.state = (fun r => part r next.state) ∧ joint.residual = next.residual ∧
        joint.exhausted = next.exhausted := by
  refine (h.advance hi).and_outcomes.mono fun next c ⟨hc, same⟩ => ?_
  let joint : JointStep σ' := ⟨fun r => (c r).state, next.residual, fun r => (c r).seen, next.exhausted⟩
  have own : c = joint.own := by
    funext r
    unfold joint JointStep.own
    rw [← (hc r).2.1, ← (hc r).2.2]
  refine ⟨joint, own, ?_, funext fun r => (hc r).1, rfl, rfl⟩
  unfold Stepped
  rw [← own]
  exact same

lemma FollowedBy.simulates_level (h : m.FollowedBy m' part I) (hm : m.Maintains epsimin start I) {e : ℝ}
    (steps : Nat) {p : Progress ℝ σ} (hp : I e p.state p.residual) (seen : Fin (R + 1) → Option ℝ) :
    Program.Simulates (m.level e steps p) (fun r => (m' r).level e steps (progressPart part p seen r))
      fun b c => (∃ seen, c = progressPart part b seen) ∧ ∃ taken,
        Climbs m' e steps (fun r => part r p.state) p.residual taken (fun r => part r b.state) b.residual ∧
        ∀ r, (c r).diagnostics = taken.foldl (fun d step => d.afterStep (step.own r))
          (p.diagnostics.withSeen (seen r)) := by
  induction steps generalizing p seen with
  | zero => exact Program.simulates_pure ⟨⟨seen, rfl⟩, [], .capped, fun _ => rfl⟩
  | succ steps ih =>
    unfold level
    by_cases hx : p.residual.Exceeds e
    · simp only [progressPart, hx, if_true]
      refine (h.stepped hp).bind fun next next' hn hnext => ?_
      -- All ranks see the same residual, so they stop together; only the record is their own.
      obtain ⟨joint, rfl, hjoint, hs, hr, hex⟩ := hnext
      have hi := (hm.step hp hx).of_serial hn
      let seen' : Fin (R + 1) → Option ℝ := fun r =>
        (Diagnostics.afterStep (p.diagnostics.withSeen (seen r)) (joint.own r)).minMultiplier
      have same : ∀ r, (⟨(joint.own r).state, (joint.own r).residual,
          Diagnostics.afterStep (p.diagnostics.withSeen (seen r)) (joint.own r)⟩ : Progress ℝ (σ' r)) =
            progressPart part ⟨next.state, next.residual, p.diagnostics.afterStep next⟩ seen' r := by
        intro r
        unfold progressPart JointStep.own Diagnostics.afterStep Diagnostics.observe Diagnostics.withSeen
        simp only [hs, hr, hex]
        rfl
      simp only [same]
      refine (ih hi seen').mono fun b c hc => ?_
      obtain ⟨hc, taken, htaken, hd⟩ := hc
      refine ⟨hc, joint :: taken, ?_, fun r => ?_⟩
      · have measured := h.measured hi
        rw [← hs, ← hr] at measured htaken
        exact .step hx hjoint measured htaken
      · rw [hd r]
        exact congrArg (taken.foldl _) (congrArg Progress.diagnostics (same r)).symm
    · simp only [progressPart, hx, if_false]
      exact Program.simulates_pure ⟨⟨seen, rfl⟩, [], .settled hx, fun _ => rfl⟩

lemma FollowedBy.simulates_levels (h : m.FollowedBy m' part I) (hm : m.Maintains epsimin start I)
    (rounds : Nat) {epsi : ℝ} {s : σ} {d : Diagnostics ℝ} (seen : Fin (R + 1) → Option ℝ)
    (hr : epsimin < epsi → (m.residual s epsi).Returns (I epsi s)) :
    Program.Simulates (m.levels epsimin rounds epsi s d)
      (fun r => (m' r).levels epsimin rounds epsi (part r s) (d.withSeen (seen r)))
      fun b c => (∃ seen : Fin (R + 1) → Option ℝ, ∀ r, c r = (part r b.1, b.2.withSeen (seen r))) ∧
        ∃ levels, Descends m' m.cap epsimin epsi (fun r => part r s) levels (fun r => part r b.1) ∧
          ∀ r, (c r).2 = levels.foldl (fun d l => l.record r d) (d.withSeen (seen r)) := by
  induction rounds generalizing epsi s d seen with
  | zero =>
    unfold levels
    by_cases he : epsimin < epsi
    · simp only [he, if_true]
      exact Program.simulates_unfinished
    · simp only [he, if_false]
      exact Program.simulates_pure ⟨⟨seen, fun _ => rfl⟩, [], .stop he, fun _ => rfl⟩
  | succ rounds ih =>
    unfold levels
    by_cases he : epsimin < epsi
    · simp only [he, if_true, h.cap]
      refine (h.residual s epsi).bind fun res res' hres hsame => ?_
      have hi := (hr he).of_serial hres
      simp only [hsame]
      refine (h.simulates_level hm m.cap (p := ⟨s, res, d⟩) hi seen).bind fun p p' hp hpart => ?_
      obtain ⟨⟨seen', rfl⟩, taken, htaken, hd⟩ := hpart
      have hi' := (hm.level_returns m.cap (p := ⟨s, res, d⟩) hi).of_serial hp
      refine (ih (d := p.diagnostics.afterLevel p.residual epsi) seen' fun hlt => hm.descend hi'.1 hlt).mono
        fun b c hc => ?_
      obtain ⟨hc, levels, hlevels, hrecord⟩ := hc
      refine ⟨hc, _, .level he (h.measured hi) htaken hlevels, fun r => ?_⟩
      rw [hrecord r, List.foldl_cons]
      unfold Level.record
      rw [← hd r]
      rfl
    · simp only [he, if_false]
      exact Program.simulates_pure ⟨⟨seen, fun _ => rfl⟩, [], .stop he, fun _ => rfl⟩

/-- The ranks solve as a single rank does, and their records are those of the course that they go through. -/
theorem FollowedBy.simulates_solve (h : m.FollowedBy m' part I) (hm : m.Maintains epsimin start I)
    (rounds : Nat) :
    Program.Simulates (m.solve epsimin rounds start)
      (fun r => (m' r).solve epsimin rounds (part r start))
      fun b c => (∃ seen : Fin (R + 1) → Option ℝ, ∀ r, c r = (part r b.1, b.2.withSeen (seen r))) ∧
        ∃ levels, Descends m' m.cap epsimin 1 (fun r => part r start) levels (fun r => part r b.1) ∧
          ∀ r, (c r).2 = recordOf levels r :=
  h.simulates_levels hm rounds (d := .initial) (fun _ => none) fun _ => hm.enter

end BarrierMethod

end MovingAsymptotes
