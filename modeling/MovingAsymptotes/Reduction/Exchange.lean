import MovingAsymptotes.Reduction

/-!
# Exchange through shared slots

How a group of concurrent ranks carries out a reduction. Each rank owns a slot that all ranks can read,
and all of them share one barrier. A rank publishes its buffer in its slot, arrives at the barrier, and
once everyone has arrived it combines all slots; it arrives at the barrier a second time, and only when
everyone has done so may it publish again. The second meeting is passed on failure too, so that the next
reduction finds the group in order.

`Machine.advance?` makes one move of one rank and refuses while that rank has to wait; `Machine.Step` is
a move of any rank. `Machine.run` gives every rank a move in turn until nothing is left to do.
-/

namespace MovingAsymptotes.Exchange

/-- A reduction that a rank asks for. -/
structure Call (α : Type) where
  op : Reduction
  buffer : Array α

/-- What a rank is left with after a reduction. -/
structure Reply (α : Type) where
  buffer : Array α
  /-- Why there is no combined buffer. -/
  fault : Option CollectiveFault

/-- Where a rank is within its current reduction. -/
inductive Phase (α : Type) where
  /-- The slot is still to be written. -/
  | ready
  /-- The slot is written. -/
  | published
  /-- The rank waits for the barrier to open after the given number of openings. -/
  | gathering (opened : Nat)
  /-- The slots are combined. -/
  | combined (reply : Reply α)
  /-- The rank waits for the barrier to open again. -/
  | leaving (reply : Reply α) (opened : Nat)

/-- A rank with the calls ahead of it and the replies behind it. -/
structure Rank (α : Type) where
  /-- The calls still to be finished, the current one first. -/
  calls : List (Call α)
  /-- Where the rank is within the current call. -/
  phase : Phase α
  /-- The replies so far, the oldest first. -/
  replies : List (Reply α)

/-- A meeting point that opens whenever all ranks have arrived. -/
structure Barrier where
  /-- The ranks that have arrived since it last opened. -/
  arrived : Nat
  /-- How often it has opened. -/
  opened : Nat

/-- The barrier once one more of `size` ranks has arrived. -/
def Barrier.arrive (size : Nat) (b : Barrier) : Barrier :=
  if b.arrived + 1 = size then { arrived := 0, opened := b.opened + 1 }
  else { b with arrived := b.arrived + 1 }

/-- A group of `r + 1` ranks with their slots and their barrier. -/
structure Machine (α : Type) (r : Nat) where
  /-- The buffer last published by each rank. -/
  slots : Vector (Array α) (r + 1)
  /-- The barrier that all ranks share. -/
  barrier : Barrier
  ranks : Vector (Rank α) (r + 1)

namespace Machine

variable {α : Type} {r : Nat}

/-- The group before its first move. -/
def start (programs : Vector (List (Call α)) (r + 1)) : Machine α r where
  slots := Vector.replicate (r + 1) #[]
  barrier := { arrived := 0, opened := 0 }
  ranks := programs.map fun calls => { calls, phase := .ready, replies := [] }

/-- The reply to a call that finds the given slots. -/
def reply [Scalar α] (call : Call α) (slots : Vector (Array α) (r + 1)) : Reply α :=
  match call.op.combine call.buffer.size slots[first r] slots.toList.tail with
  | .ok combined => { buffer := combined.toArray, fault := none }
  | .error fault => { buffer := call.buffer, fault := some fault }

/-- The group with another phase for rank `i`. -/
def setPhase (m : Machine α r) (i : Fin (r + 1)) (phase : Phase α) : Machine α r :=
  { m with ranks := m.ranks.set i { m.ranks[i] with phase } }

/-- The group after a move of rank `i`, or `none` if that rank waits or has nothing left to do. -/
def advance? [Scalar α] (m : Machine α r) (i : Fin (r + 1)) : Option (Machine α r) :=
  let rank := m.ranks[i]
  match rank.calls with
  | [] => none
  | call :: later =>
    match rank.phase with
    | .ready => some { m.setPhase i .published with slots := m.slots.set i call.buffer }
    | .published =>
      some { m.setPhase i (.gathering m.barrier.opened) with barrier := m.barrier.arrive (r + 1) }
    | .gathering opened =>
      if m.barrier.opened = opened then none
      else some (m.setPhase i (.combined (reply call m.slots)))
    | .combined result =>
      some { m.setPhase i (.leaving result m.barrier.opened) with
        barrier := m.barrier.arrive (r + 1) }
    | .leaving result opened =>
      if m.barrier.opened = opened then none
      else some { m with
        ranks := m.ranks.set i
          { calls := later, phase := .ready, replies := rank.replies ++ [result] } }

/-- One machine becomes another by a move of some rank. -/
def Step [Scalar α] (m m' : Machine α r) : Prop := ∃ i, m.advance? i = some m'

/-- A move of every rank that can make one, in rank order. -/
def sweep [Scalar α] (m : Machine α r) : Machine α r :=
  Fin.foldl (r + 1) (fun m i => (m.advance? i).getD m) m

/-- The number of calls still to be finished, over all ranks. -/
def remaining (m : Machine α r) : Nat :=
  m.ranks.foldl (fun n rank => n + rank.calls.length) 0

/-- The group once no rank has anything left to do. A call takes five moves, and each sweep makes at
least one unless the group is stuck, so five sweeps for every call are enough. -/
def run [Scalar α] (m : Machine α r) : Machine α r := Nat.repeat sweep (5 * m.remaining) m

end Machine

end MovingAsymptotes.Exchange
