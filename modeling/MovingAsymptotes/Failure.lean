import MovingAsymptotes.Method

/-!
# Failures

Why an operation gives no result. A cause says what went wrong; a failure of the optimizer adds the
activities during which it went wrong. Running into an iteration cap is no failure: it is recorded in
the diagnostics of a solve.
-/

namespace MovingAsymptotes

/-- Why a setting is refused. -/
inductive SettingFault (α : Type) where
  /-- The setting has to be positive and finite. -/
  | notPositive (name : String) (value : α)
  /-- The entry of a vector has to be positive and finite. -/
  | entryNotPositive (name : String) (index : Nat) (value : α)
  /-- The setting has to lie strictly between zero and one. -/
  | notInUnitInterval (name : String) (value : α)
  /-- A solver is left without inner iterations. -/
  | noInnerIterations
  | other (reason : String)
deriving DecidableEq, Repr

/-- Why a reduction over the ranks gives no result. -/
inductive CollectiveFault where
  /-- A rank contributed a buffer of another length. -/
  | lengthMismatch (rank actual expected : Nat)
  | other (reason : String)
deriving DecidableEq, Repr

/-- What went wrong. -/
inductive Cause (α : Type) where
  | dimensionMismatch (what : String) (expected actual : Nat)
  /-- The lower bound of a variable is not below its upper bound. -/
  | invalidBounds (index : Nat) (lower upper : α)
  | designOutOfBounds (index : Nat) (value lower upper : α)
  | invalidSetting (fault : SettingFault α)
  /-- There is nothing to constrain the problem. -/
  | noConstraints
  /-- The linear system of a Newton step has no unique solution. -/
  | singularSystem (system : String)
  /-- The linearised constraint is violated even at the largest multiplier. -/
  | unbracketedMultiplier (upper violation : α)
  /-- A reduction over the ranks gave no result. -/
  | collective (fault : CollectiveFault)
  /-- There is no subproblem solution to take multipliers from. -/
  | noSubproblemSolution
  /-- The weights in force do not belong to the number of constraints at hand. -/
  | unfitWeights (constraints : Nat)
deriving DecidableEq, Repr

/-- What the optimizer was doing. -/
inductive Activity where
  | criteriaUpdate (iteration : Nat)
  | subproblemUpdate (iteration : Nat)
  | subproblemSolve (method : Method)
  | kktCheck
deriving DecidableEq, Repr

/-- A cause, and the activities during which it arose, the outermost first. -/
structure Failure (α : Type) where
  during : List Activity
  /-- What went wrong in the innermost of them. -/
  cause : Cause α
deriving DecidableEq, Repr

/-- The failure as seen from an activity around it. -/
def Failure.within {α : Type} (activity : Activity) (f : Failure α) : Failure α :=
  { f with during := activity :: f.during }

end MovingAsymptotes
