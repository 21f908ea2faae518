import MovingAsymptotes.Failure
import MovingAsymptotes.Decimal.Notation

/-!
# Messages

The wording of failures. Numbers appear with their shortest digits, in positional notation except
where a multiplier could not be bracketed.
-/

namespace MovingAsymptotes

open Decimal

/-- Why a setting is refused, in words. -/
def SettingFault.message : SettingFault Float → String
  | .notPositive name value => s!"{name} must be positive and finite, got {positional value}"
  | .entryNotPositive name index value =>
    s!"{name}[{index}] must be positive and finite, got {positional value}"
  | .notInUnitInterval name value => s!"{name} must lie in (0, 1), got {positional value}"
  | .noInnerIterations => "inner iteration caps must be greater than zero"
  | .other reason => reason

/-- Why a reduction gives no result, in words. -/
def CollectiveFault.message : CollectiveFault → String
  | .lengthMismatch rank actual expected =>
    s!"rank {rank} contributed {actual} values, expected {expected}"
  | .other reason => reason

/-- What went wrong, in words. -/
def Cause.message : Cause Float → String
  | .dimensionMismatch what expected actual =>
    s!"{what} dimension mismatch: expected {expected}, got {actual}"
  | .invalidBounds index lower upper =>
    s!"invalid bounds at local index {index}: xmin = {positional lower}, xmax = {positional upper}"
  | .designOutOfBounds index value lower upper =>
    s!"design value {positional value} at local index {index} lies outside " ++
      s!"[{positional lower}, {positional upper}]"
  | .invalidSetting fault => s!"invalid setting: {fault.message}"
  | .noConstraints => "no constraints configured; call set_m before update"
  | .singularSystem system => s!"{system} linear system is singular"
  | .unbracketedMultiplier upper violation =>
    s!"OC multiplier is not bracketed: linearized constraint {scientific violation} > 0 " ++
      s!"at lambda = {scientific upper}"
  | .collective fault => s!"collective operation failed: {fault.message}"
  | .noSubproblemSolution => "KKT check needs a preceding MMA subproblem solve"
  | .unfitWeights constraints => s!"weights in force do not fit {constraints} constraints"

/-- What the optimizer was doing, in words. -/
def Activity.message : Activity → String
  | .criteriaUpdate iteration => s!"OC update failed at iteration {iteration}"
  | .subproblemUpdate iteration => s!"MMA update failed at iteration {iteration}"
  | .subproblemSolve method => s!"{method.title} subproblem solve failed"
  | .kktCheck => "KKT check failed"

end MovingAsymptotes
