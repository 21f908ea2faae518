/-!
# Execution

The circumstances under which a rank works: how many ranks share the design, and how many rounds a loop
may take whose end is not known beforehand. A program whose loop needs more rounds ends unfinished.
-/

namespace MovingAsymptotes

/-- The circumstances under which a rank works. -/
structure Execution where
  /-- The number of ranks that share the design. -/
  ranks : Nat
  /-- The number of rounds that a loop of unknown length may take. -/
  rounds : Nat

/-- A single rank that owns the whole design. -/
def Execution.single (rounds : Nat) : Execution := { ranks := 1, rounds }

end MovingAsymptotes
