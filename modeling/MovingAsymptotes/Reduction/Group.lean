import MovingAsymptotes.Reduction.Program

/-!
# Groups of programs

One program per rank, run in step: whenever the ranks wait for a reduction, each of them combines the
buffers of all, in rank order and with its own operation. A group has outcomes only if its ranks take
part in the same number of reductions; a rank that ends while another waits leaves the group stuck.
-/

namespace MovingAsymptotes.Program

variable {α ε β : Type}

/-- A reduction that a rank waits for. -/
structure Waiting (α ε β : Type) where
  length : Nat
  op : Reduction
  buffer : Vector α length
  /-- How the rank goes on. -/
  next : Except CollectiveFault (Vector α length) → Program α ε β

/-- The reduction that a program waits for, unless it has ended. -/
def waiting? : Program α ε β → Option (Waiting α ε β)
  | .reduce op buffer next => some { op, buffer, next, length := _ }
  | _ => none

/-- The outcome of a program that has ended. -/
def outcome? : Program α ε β → Option (Outcome ε β)
  | .pure b => some (.done b)
  | .fail e => some (.failed e)
  | .unfinished => some .unfinished
  | .reduce _ _ _ => none

/-- How a waiting rank goes on with the buffers of all ranks. -/
def Waiting.resume [Scalar α] (w : Waiting α ε β) (first : Array α) (others : List (Array α)) :
    Program α ε β :=
  w.next (w.op.combine w.length first others)

/-- The outcomes of a group, rank zero first, or `none` if the group gets stuck. -/
def group [Scalar α] : Program α ε β → List (Program α ε β) → Option (List (Outcome ε β))
  | .pure b, others => (others.mapM outcome?).map (.done b :: ·)
  | .fail e, others => (others.mapM outcome?).map (.failed e :: ·)
  | .unfinished, others => (others.mapM outcome?).map (.unfinished :: ·)
  | @reduce _ _ _ k op buffer next, others =>
    match others.mapM waiting? with
    | none => none
    | some others =>
      let buffers := others.map fun w => w.buffer.toArray
      group (next (op.combine k buffer.toArray buffers))
        (others.map fun w => w.resume buffer.toArray buffers)

end MovingAsymptotes.Program
