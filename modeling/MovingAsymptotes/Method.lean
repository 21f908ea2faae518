/-!
# Solution methods

The two backends for a subproblem with at least two constraints.
-/

namespace MovingAsymptotes

/-- How the convex subproblem is solved. -/
inductive Method where
  /-- Newton's method on the dual of the subproblem. -/
  | dualNewton
  /-- A primal-dual interior-point method on all variables at once. -/
  | primalDual
deriving DecidableEq, Repr

/-- The name of a method in messages. -/
def Method.title : Method → String
  | .dualNewton => "dual Newton"
  | .primalDual => "primal-dual"

end MovingAsymptotes
