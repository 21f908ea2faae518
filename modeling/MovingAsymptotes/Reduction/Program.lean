import MovingAsymptotes.Reduction

/-!
# Programs

What one rank does. A program is either over, or it waits for a reduction to which it contributes a buffer,
and goes on with the answer. It knows nothing of the other ranks: `Program.serial` runs it in a group of
one, and `Program.group` runs one program for each rank.

A program may end without a result because a loop used up the rounds it was given. That is kept apart from
failure: with more rounds the same program goes on.
-/

namespace MovingAsymptotes

/-- What one rank does: it takes part in reductions, fails with an `ε` or results in a `β`. -/
inductive Program (α ε β : Type) where
  | pure (result : β)
  | fail (error : ε)
  /-- A loop has used up its rounds. -/
  | unfinished
  /-- The rank contributes a buffer and goes on with the combined one. -/
  | reduce {k : Nat} (op : Reduction) (buffer : Vector α k)
      (next : Except CollectiveFault (Vector α k) → Program α ε β)

/-- How a program ends. -/
inductive Outcome (ε β : Type) where
  | done (result : β)
  | failed (error : ε)
  /-- With a loop that has used up its rounds. -/
  | unfinished
deriving DecidableEq, Repr

/-- Goes on from a result. -/
def Outcome.andThen {ε β γ : Type} : Outcome ε β → (β → Outcome ε γ) → Outcome ε γ
  | .done b, f => f b
  | .failed e, _ => .failed e
  | .unfinished, _ => .unfinished

namespace Program

variable {α ε ε' β γ : Type}

/-- Goes on with another program after a result. -/
def bind : Program α ε β → (β → Program α ε γ) → Program α ε γ
  | .pure b, f => f b
  | .fail e, _ => .fail e
  | .unfinished, _ => .unfinished
  | .reduce op buffer next, f => .reduce op buffer fun reply => (next reply).bind f

instance : Monad (Program α ε) where
  pure := Program.pure
  bind := Program.bind

theorem bind_pure (p : Program α ε β) : p.bind Program.pure = p := by
  induction p with
  | pure b => rfl
  | fail e => rfl
  | unfinished => rfl
  | reduce op buffer next ih => simp only [bind, ih]

theorem bind_assoc {δ : Type} (p : Program α ε β) (f : β → Program α ε γ)
    (g : γ → Program α ε δ) : (p.bind f).bind g = p.bind fun b => (f b).bind g := by
  induction p with
  | pure b => rfl
  | fail e => rfl
  | unfinished => rfl
  | reduce op buffer next ih => simp only [bind, ih]

instance : LawfulMonad (Program α ε) :=
  LawfulMonad.mk' _ bind_pure (fun _ _ => rfl) bind_assoc

/-- Rewords the failure of a program. -/
def mapError (f : ε → ε') : Program α ε β → Program α ε' β
  | .pure b => .pure b
  | .fail e => .fail (f e)
  | .unfinished => .unfinished
  | .reduce op buffer next => .reduce op buffer fun reply => (next reply).mapError f

/-- A program that does not fail: its result is what the given program results in or fails with. -/
def attempt : Program α ε β → Program α ε' (Except ε β)
  | .pure b => .pure (.ok b)
  | .fail e => .pure (.error e)
  | .unfinished => .unfinished
  | .reduce op buffer next => .reduce op buffer fun reply => (next reply).attempt

/-- The program that ends at once, as a computation did. -/
def ofExcept : Except ε β → Program α ε β
  | .ok b => .pure b
  | .error e => .fail e

/-- Runs a program in a group of one, whose reductions give back the buffer. -/
def serial : Program α ε β → Outcome ε β
  | .pure b => .done b
  | .fail e => .failed e
  | .unfinished => .unfinished
  | .reduce _ buffer next => (next (.ok buffer)).serial

/-- Programs run one after the other end as their outcomes do. -/
theorem serial_bind (p : Program α ε β) (f : β → Program α ε γ) :
    (p >>= f).serial = p.serial.andThen fun b => (f b).serial := by
  change (p.bind f).serial = _
  induction p with
  | pure b => rfl
  | fail e => rfl
  | unfinished => rfl
  | reduce op buffer next ih => exact ih _

/-- A reduction whose failure is the failure of the program. -/
def reduceAll {k : Nat} (op : Reduction) (buffer : Vector α k) : Program α (Cause α) (Vector α k) :=
  .reduce op buffer fun
    | .ok combined => .pure combined
    | .error fault => .fail (.collective fault)

/-- A reduction of a single scalar. -/
def reduceScalar (op : Reduction) (a : α) : Program α (Cause α) α := do
  let combined ← reduceAll op #v[a]
  return combined[0]

end Program

end MovingAsymptotes
