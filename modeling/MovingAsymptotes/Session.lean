import MovingAsymptotes.Optimizer.Update

/-!
# Sessions

A run of the optimizer as a sequence of calls, each with its reply and the state it leaves. A call that
fails leaves the session open, except that refused settings end it.
-/

namespace MovingAsymptotes

namespace Session

/-- A call to the optimizer. -/
inductive Call (α : Type) where
  | setConstraintCount (m : Nat)
  | editWeights (edit : WeightDraft α → WeightDraft α)
  | configure (settings : Settings α)
  | setBounds (lower upper : Array α)
  | setDesign (x : Array α)
  | update (s : Sensitivities α)
  | kktCheck (s : Sensitivities α)

/-- What a call that succeeds answers. -/
inductive Reply (α : Type) where
  | weights (w : WeightDraft α)
  | settings (s : Settings α)
  | accepted
  /-- The largest relative step of the design. -/
  | change (a : α)
  | residual (r : Residual α)

/-- A call that has been made. -/
structure Entry (α : Type) (n : Nat) where
  reply : Except (Failure α) (Reply α)
  /-- The state after the call, unless the call ended the session. -/
  state : Option (Optimizer α n)

end Session

variable {α ε : Type} [Scalar α] {n : Nat}

namespace Optimizer

open Session

/-- The entry of a call that changes the state or leaves it alone. -/
def settle (o : Optimizer α n) (reply : Reply α) :
    Except (Cause α) (Optimizer α n) → Entry α n
  | .ok o' => { reply := .ok reply, state := some o' }
  | .error cause => { reply := .error { during := [], cause }, state := some o }

/-- Makes a call. -/
def perform (o : Optimizer α n) (e : Execution) : Call α → Program α ε (Entry α n)
  | .setConstraintCount m =>
    let o := o.setConstraintCount m
    .pure { reply := .ok (.weights o.weights), state := some o }
  | .editWeights edit =>
    let o := o.editWeights edit
    .pure { reply := .ok (.weights o.weights), state := some o }
  | .configure settings =>
    match o.withSettings settings with
    | .ok o => .pure { reply := .ok (.settings o.settings), state := some o }
    | .error cause => .pure { reply := .error { during := [], cause }, state := none }
  | .setBounds lower upper => .pure (o.settle .accepted (o.setBounds lower upper))
  | .setDesign x => .pure (o.settle .accepted (o.setDesign x))
  | .update s => do
    let (o, change) ← o.update e s
    return { reply := change.map .change, state := some o }
  | .kktCheck s => do
    let residual ← o.kktCheck s
    return { reply := residual.map .residual, state := some o }

/-- Makes calls in turn, as long as the session is open. -/
def session (o : Optimizer α n) (e : Execution) : List (Call α) → Program α ε (List (Entry α n))
  | [] => .pure []
  | call :: later => do
    let entry ← o.perform e call
    match entry.state with
    | none => return [entry]
    | some o => return entry :: (← o.session e later)

/-- A configured optimizer for a rank with `n` of `nGlobal` variables. -/
def start (n nGlobal : Nat) (settings : Settings α) : Program α (Cause α) (Optimizer α n) := do
  let o ← create n nGlobal
  .ofExcept (o.withSettings settings)

end Optimizer

end MovingAsymptotes
