import MovingAsymptotes.Diagnostics
import MovingAsymptotes.Reduction.Program

/-!
# Barrier descent

What the two backends have in common. A barrier method takes Newton steps on conditions that are relaxed
by a barrier parameter, until the largest residual is at most nine tenths of the parameter or the cap on
steps is reached. The parameter starts at one and is divided by ten from level to level, as long as it
exceeds the one at which the solve stops.
-/

namespace MovingAsymptotes

/-- A Newton step: the state it leads to, and what it adds to the diagnostics. -/
structure NewtonStep (α σ : Type) where
  state : σ
  residual : Residual α
  /-- Multipliers of that state, among them the smallest. -/
  seen : List α
  /-- Whether the line search ended on its cap. -/
  exhausted : Bool

/-- A method that follows the barrier parameter to zero. -/
structure BarrierMethod (α σ : Type) where
  /-- The cap on Newton steps per level. -/
  cap : Nat
  residual : σ → α → Program α (Cause α) (Residual α)
  /-- A Newton step from a state with a known residual, for a barrier parameter. -/
  advance : σ → Residual α → α → Program α (Cause α) (NewtonStep α σ)

/-- Where a solve stands. -/
structure Progress (α σ : Type) where
  state : σ
  residual : Residual α
  /-- The record so far. -/
  diagnostics : Diagnostics α

variable {α σ : Type} [Scalar α]

/-- A residual still too large for the barrier parameter. -/
def Residual.Exceeds (r : Residual α) (epsi : α) : Prop := 0.9 * epsi < r.max

instance (r : Residual α) (epsi : α) : Decidable (r.Exceeds epsi) :=
  inferInstanceAs (Decidable (_ < _))

/-- The record after a Newton step. -/
def Diagnostics.afterStep (d : Diagnostics α) (step : NewtonStep α σ) : Diagnostics α :=
  { d.observe step.seen with
    newtonIterations := d.newtonIterations + 1
    exhaustedLineSearches := d.exhaustedLineSearches + if step.exhausted then 1 else 0 }

/-- The record after a level that ends with the given residual. -/
def Diagnostics.afterLevel (d : Diagnostics α) (r : Residual α) (epsi : α) : Diagnostics α :=
  { d with
    barrierLevels := d.barrierLevels + 1
    cappedLevels := d.cappedLevels + if r.Exceeds epsi then 1 else 0
    residualNorm := r.norm
    residualMax := r.max }

namespace BarrierMethod

/-- Newton steps for one barrier parameter, at most as many as given. -/
def level (m : BarrierMethod α σ) (epsi : α) :
    Nat → Progress α σ → Program α (Cause α) (Progress α σ)
  | 0, p => .pure p
  | steps + 1, p =>
    if p.residual.Exceeds epsi then do
      let step ← m.advance p.state p.residual epsi
      m.level epsi steps
        { state := step.state
          residual := step.residual
          diagnostics := p.diagnostics.afterStep step }
    else .pure p

/-- Levels for decreasing barrier parameters down to `epsimin`, at most as many as given. -/
def levels (m : BarrierMethod α σ) (epsimin : α) :
    Nat → α → σ → Diagnostics α → Program α (Cause α) (σ × Diagnostics α)
  | 0, epsi, state, d => if epsimin < epsi then .unfinished else .pure (state, d)
  | rounds + 1, epsi, state, d =>
    if epsimin < epsi then do
      let residual ← m.residual state epsi
      let p ← m.level epsi m.cap { state, residual, diagnostics := d }
      m.levels epsimin rounds (epsi * 0.1) p.state (p.diagnostics.afterLevel p.residual epsi)
    else .pure (state, d)

/-- The state that a solve from `start` ends with, and its record. -/
def solve (m : BarrierMethod α σ) (epsimin : α) (rounds : Nat) (start : σ) :
    Program α (Cause α) (σ × Diagnostics α) :=
  m.levels epsimin rounds 1 start .initial

end BarrierMethod

end MovingAsymptotes
