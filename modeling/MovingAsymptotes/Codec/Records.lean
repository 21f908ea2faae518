import MovingAsymptotes.Codec.Value
import MovingAsymptotes.Convergence
import MovingAsymptotes.Diagnostics
import MovingAsymptotes.Settings

/-!
# Stored records

How settings, diagnostics, residuals and convergence signals are stored as value trees and read back.
Keys missing from settings take their defaults; all other records have to be complete.
-/

namespace MovingAsymptotes

variable {α : Type} [Scalar α]

namespace Method

/-- The stored name of a method. -/
def name : Method → String
  | .dualNewton => "DualNewton"
  | .primalDual => "PrimalDual"

/-- The method with a stored name. -/
def ofName? (name : String) : Option Method :=
  [Method.dualNewton, .primalDual].find? fun method => method.name = name

/-- A method as a value. -/
def encode (method : Method) : Value α := .text method.name

/-- The method that a value stores. -/
def decode? (value : Value α) : Option Method := value.caseName?.bind ofName?

end Method

namespace CriteriaSettings

/-- The keys of the fields, in the order of their declaration. -/
def keys : List String :=
  ["eta", "move_limit", "lambda_upper", "bracket_tolerance", "require_bracket"]

/-- The settings as an object. -/
def encode (s : CriteriaSettings α) : Value α :=
  .object
    [("eta", .ofScalar s.eta), ("move_limit", .ofScalar s.moveLimit),
      ("lambda_upper", .ofScalar s.lambdaUpper),
      ("bracket_tolerance", .ofScalar s.bracketTolerance),
      ("require_bracket", .flag s.requireBracket)]

/-- The settings that a value stores, completed by the defaults. -/
def decode? (value : Value α) : Option (CriteriaSettings α) := do
  let fields ← value.fields? keys
  let usual : CriteriaSettings α := .default
  return {
    eta := ← optionalField fields "eta" Value.scalar? usual.eta
    moveLimit := ← optionalField fields "move_limit" Value.scalar? usual.moveLimit
    lambdaUpper := ← optionalField fields "lambda_upper" Value.scalar? usual.lambdaUpper
    bracketTolerance :=
      ← optionalField fields "bracket_tolerance" Value.scalar? usual.bracketTolerance
    requireBracket := ← optionalField fields "require_bracket" Value.flag? usual.requireBracket }

end CriteriaSettings

namespace Settings

/-- The keys of the fields, in the order of their declaration. -/
def keys : List String :=
  ["asyinit", "asyincr", "asydecr", "albefa", "mmamove", "raa0", "epsimin", "dual_max_inner",
    "primal_dual_max_inner", "max_backtracks", "method", "oc"]

/-- The settings as an object. -/
def encode (s : Settings α) : Value α :=
  .object
    [("asyinit", .ofScalar s.asyinit), ("asyincr", .ofScalar s.asyincr),
      ("asydecr", .ofScalar s.asydecr), ("albefa", .ofScalar s.albefa),
      ("mmamove", .ofScalar s.mmamove), ("raa0", .ofScalar s.raa0),
      ("epsimin", .ofScalar s.epsimin), ("dual_max_inner", .ofCount s.dualMaxInner),
      ("primal_dual_max_inner", .ofCount s.primalDualMaxInner),
      ("max_backtracks", .ofCount s.maxBacktracks), ("method", s.method.encode),
      ("oc", s.oc.encode)]

/-- The settings that a value stores, completed by the defaults. -/
def decode? (value : Value α) : Option (Settings α) := do
  let fields ← value.fields? keys
  let usual : Settings α := .default
  return {
    asyinit := ← optionalField fields "asyinit" Value.scalar? usual.asyinit
    asyincr := ← optionalField fields "asyincr" Value.scalar? usual.asyincr
    asydecr := ← optionalField fields "asydecr" Value.scalar? usual.asydecr
    albefa := ← optionalField fields "albefa" Value.scalar? usual.albefa
    mmamove := ← optionalField fields "mmamove" Value.scalar? usual.mmamove
    raa0 := ← optionalField fields "raa0" Value.scalar? usual.raa0
    epsimin := ← optionalField fields "epsimin" Value.scalar? usual.epsimin
    dualMaxInner := ← optionalField fields "dual_max_inner" Value.count? usual.dualMaxInner
    primalDualMaxInner :=
      ← optionalField fields "primal_dual_max_inner" Value.count? usual.primalDualMaxInner
    maxBacktracks := ← optionalField fields "max_backtracks" Value.count? usual.maxBacktracks
    method := ← optionalField fields "method" Method.decode? usual.method
    oc := ← optionalField fields "oc" CriteriaSettings.decode? usual.oc }

end Settings

namespace Diagnostics

/-- The keys of the fields, in the order of their declaration. -/
def keys : List String :=
  ["barrier_levels", "newton_iterations", "capped_levels", "exhausted_line_searches",
    "residual_norm", "residual_max", "min_multiplier"]

/-- The diagnostics as an object. A smallest multiplier that was never seen is stored as `null`. -/
def encode (d : Diagnostics α) : Value α :=
  .object
    [("barrier_levels", .ofCount d.barrierLevels),
      ("newton_iterations", .ofCount d.newtonIterations),
      ("capped_levels", .ofCount d.cappedLevels),
      ("exhausted_line_searches", .ofCount d.exhaustedLineSearches),
      ("residual_norm", .ofScalar d.residualNorm), ("residual_max", .ofScalar d.residualMax),
      ("min_multiplier", (d.minMultiplier.map Value.ofScalar).getD .null)]

/-- The diagnostics that a value stores. -/
def decode? (value : Value α) : Option (Diagnostics α) := do
  let fields ← value.fields? keys
  return {
    barrierLevels := ← requiredField fields "barrier_levels" Value.count?
    newtonIterations := ← requiredField fields "newton_iterations" Value.count?
    cappedLevels := ← requiredField fields "capped_levels" Value.count?
    exhaustedLineSearches := ← requiredField fields "exhausted_line_searches" Value.count?
    residualNorm := ← requiredField fields "residual_norm" Value.scalar?
    residualMax := ← requiredField fields "residual_max" Value.scalar?
    minMultiplier := some (← requiredField fields "min_multiplier" Value.scalar?) }

end Diagnostics

namespace Residual

/-- The keys of the fields, in the order of their declaration. -/
def keys : List String := ["norm", "max"]

/-- The measures as an object. -/
def encode (r : Residual α) : Value α :=
  .object [("norm", .ofScalar r.norm), ("max", .ofScalar r.max)]

/-- The measures that a value stores. -/
def decode? (value : Value α) : Option (Residual α) := do
  let fields ← value.fields? keys
  return {
    norm := ← requiredField fields "norm" Value.scalar?
    max := ← requiredField fields "max" Value.scalar? }

end Residual

namespace Convergence

/-- The keys of the fields, in the order of their declaration. -/
def keys : List String := ["change", "residual_norm", "residual_max"]

/-- The signals as an object. -/
def encode (c : Convergence α) : Value α :=
  .object
    [("change", .ofScalar c.change), ("residual_norm", .ofScalar c.residualNorm),
      ("residual_max", .ofScalar c.residualMax)]

/-- The signals that a value stores. -/
def decode? (value : Value α) : Option (Convergence α) := do
  let fields ← value.fields? keys
  return {
    change := ← requiredField fields "change" Value.scalar?
    residualNorm := ← requiredField fields "residual_norm" Value.scalar?
    residualMax := ← requiredField fields "residual_max" Value.scalar? }

end Convergence

end MovingAsymptotes
