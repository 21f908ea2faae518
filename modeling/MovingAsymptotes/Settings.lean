import MovingAsymptotes.Scalar
import MovingAsymptotes.Failure

/-!
# Settings

The parameters of a run, with their defaults and the ranges in which they are accepted.
-/

namespace MovingAsymptotes

/-- Parameters of the optimality-criteria update. -/
structure CriteriaSettings (α : Type) where
  /-- The exponent of the update ratio. -/
  eta : α
  /-- The largest move, as a share of the range of a variable. -/
  moveLimit : α
  /-- The upper end of the bracket of the multiplier. -/
  lambdaUpper : α
  /-- The width at which bisection of the bracket stops. -/
  bracketTolerance : α
  /-- Whether to fail when the constraint cannot be met at the upper end of the bracket. -/
  requireBracket : Bool
deriving BEq, Repr

/-- Parameters of a run. -/
structure Settings (α : Type) where
  /-- The initial distance of the asymptotes, as a share of the range of a variable. -/
  asyinit : α
  /-- The factor by which asymptotes move away under a steady trend. -/
  asyincr : α
  /-- The factor by which asymptotes close in under oscillation. -/
  asydecr : α
  /-- The share of the distance to an asymptote that the move limits keep clear of. -/
  albefa : α
  /-- The largest move, as a share of the range of a variable. -/
  mmamove : α
  /-- The curvature added to every approximated function. -/
  raa0 : α
  /-- The barrier parameter at which a solve stops. -/
  epsimin : α
  /-- The cap on Newton steps per barrier level of the dual method. -/
  dualMaxInner : Nat
  /-- The cap on Newton steps per barrier level of the primal-dual method. -/
  primalDualMaxInner : Nat
  /-- The cap on trial steps of a line search. -/
  maxBacktracks : Nat
  /-- How the subproblem is solved. -/
  method : Method
  /-- Parameters of the update with a single constraint. -/
  oc : CriteriaSettings α
deriving BEq, Repr

variable {α : Type} [Scalar α]

namespace CriteriaSettings

/-- The usual parameters. -/
def default : CriteriaSettings α where
  eta := 0.5
  moveLimit := 0.2
  lambdaUpper := 1e6
  bracketTolerance := 1e-4
  requireBracket := false

end CriteriaSettings

/-- The usual parameters. -/
def Settings.default : Settings α where
  asyinit := 0.5
  asyincr := 1.2
  asydecr := 0.7
  albefa := 0.1
  mmamove := 0.5
  raa0 := 1e-5
  epsimin := 1e-7
  dualMaxInner := 100
  primalDualMaxInner := 200
  maxBacktracks := 50
  method := .dualNewton
  oc := .default

/-- Refuses a setting that is not positive and finite. -/
def requirePositive (name : String) (value : α) : Except (SettingFault α) Unit :=
  if IsPositive value then .ok () else .error (.notPositive name value)

/-- Refuses a setting that does not lie strictly between zero and one. -/
def requireUnitInterval (name : String) (value : α) : Except (SettingFault α) Unit :=
  if InUnitInterval value then .ok () else .error (.notInUnitInterval name value)

/-- Refuses parameters of the optimality-criteria update that are not positive and finite. -/
def CriteriaSettings.validate (s : CriteriaSettings α) : Except (SettingFault α) Unit := do
  requirePositive "oc.eta" s.eta
  requirePositive "oc.move_limit" s.moveLimit
  requirePositive "oc.lambda_upper" s.lambdaUpper
  requirePositive "oc.bracket_tolerance" s.bracketTolerance

/-- Refuses parameters outside their ranges; the first one in the order of the fields is named. -/
def Settings.validate (s : Settings α) : Except (SettingFault α) Unit := do
  requirePositive "asyinit" s.asyinit
  requirePositive "asyincr" s.asyincr
  requirePositive "asydecr" s.asydecr
  requireUnitInterval "albefa" s.albefa
  requirePositive "mmamove" s.mmamove
  requirePositive "raa0" s.raa0
  requireUnitInterval "epsimin" s.epsimin
  if s.dualMaxInner = 0 ∨ s.primalDualMaxInner = 0 then .error .noInnerIterations
  s.oc.validate

end MovingAsymptotes
