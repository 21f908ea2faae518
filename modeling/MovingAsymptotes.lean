import MovingAsymptotes.Codec.Records
import MovingAsymptotes.Failure.Message
import MovingAsymptotes.Proofs.Approximation
import MovingAsymptotes.Proofs.Asymptotes
import MovingAsymptotes.Proofs.Barrier
import MovingAsymptotes.Proofs.Confinement
import MovingAsymptotes.Proofs.Distributed.Barrier
import MovingAsymptotes.Proofs.Distributed.Dual
import MovingAsymptotes.Proofs.Distributed.InteriorPoint
import MovingAsymptotes.Proofs.Distributed.OptimalityCriteria
import MovingAsymptotes.Proofs.Distributed.Optimizer
import MovingAsymptotes.Proofs.Distributed.Part
import MovingAsymptotes.Proofs.Distributed.Residual
import MovingAsymptotes.Proofs.Distributed.Session
import MovingAsymptotes.Proofs.Dual.Agreement
import MovingAsymptotes.Proofs.Dual.Newton
import MovingAsymptotes.Proofs.Dual.Point
import MovingAsymptotes.Proofs.Dual.Recovery
import MovingAsymptotes.Proofs.Exact
import MovingAsymptotes.Proofs.InteriorPoint.Direction
import MovingAsymptotes.Proofs.InteriorPoint.Settled
import MovingAsymptotes.Proofs.InteriorPoint.Solver
import MovingAsymptotes.Proofs.Kkt.FixedPoint
import MovingAsymptotes.Proofs.Kkt.Residual
import MovingAsymptotes.Proofs.Linear.Bordered
import MovingAsymptotes.Proofs.Linear.Elimination
import MovingAsymptotes.Proofs.Linear.Form
import MovingAsymptotes.Proofs.Linear.Vector
import MovingAsymptotes.Proofs.OptimalityCriteria
import MovingAsymptotes.Proofs.Optimizer.Advance
import MovingAsymptotes.Proofs.Optimizer.Conditions
import MovingAsymptotes.Proofs.Optimizer.Evaluation
import MovingAsymptotes.Proofs.Optimizer.Failure
import MovingAsymptotes.Proofs.Optimizer.Log
import MovingAsymptotes.Proofs.Optimizer.Nesting
import MovingAsymptotes.Proofs.Optimizer.Update
import MovingAsymptotes.Proofs.Reduction.Abreast
import MovingAsymptotes.Proofs.Reduction.Completion
import MovingAsymptotes.Proofs.Reduction.Distribution
import MovingAsymptotes.Proofs.Reduction.Exchange
import MovingAsymptotes.Proofs.Reduction.Group
import MovingAsymptotes.Proofs.Reduction.Lockstep
import MovingAsymptotes.Proofs.Reduction.Replies
import MovingAsymptotes.Proofs.Reduction.Serial
import MovingAsymptotes.Proofs.Replicated.Session
import MovingAsymptotes.Proofs.Replicated.Solvers
import MovingAsymptotes.Proofs.Sensitivities
import MovingAsymptotes.Proofs.Session
import MovingAsymptotes.Proofs.Settings
import MovingAsymptotes.Proofs.Subproblem
import MovingAsymptotes.Reduction.Exchange
import MovingAsymptotes.Reduction.Group
import MovingAsymptotes.Scalar.Double
import MovingAsymptotes.Session
import MovingAsymptotes.Proofs.Partial.Linear
import MovingAsymptotes.Proofs.Partial.Program
import MovingAsymptotes.Proofs.Partial.Approximation
import MovingAsymptotes.Proofs.Partial.Direction
import MovingAsymptotes.Proofs.Partial.Solvers
import MovingAsymptotes.Proofs.Partial.Update
import MovingAsymptotes.Proofs.Partial.Loss
import MovingAsymptotes.Proofs.Convexity
import MovingAsymptotes.Proofs.Kkt.Optimality
import MovingAsymptotes.Proofs.Optimizer.HalfWidth
import MovingAsymptotes.Proofs.InteriorPoint.Linearisation
import MovingAsymptotes.Proofs.Positivity
import MovingAsymptotes.Proofs.Dual.Minimiser
import MovingAsymptotes.Proofs.Dual.Derivative
import MovingAsymptotes.Proofs.Dual.Ascent
import MovingAsymptotes.Proofs.InteriorPoint.Descent
import MovingAsymptotes.Proofs.Optimizer.Slope
import MovingAsymptotes.Proofs.Distributed.Approximation
import MovingAsymptotes.Proofs.OptimalityCriteria.Bracket
import MovingAsymptotes.Proofs.OptimalityCriteria.Overrun
import MovingAsymptotes.Proofs.OptimalityCriteria.Verdict
import MovingAsymptotes.Proofs.Optimizer.Weighing
import MovingAsymptotes.Proofs.Barrier.Course
import MovingAsymptotes.Proofs.Diagnostics
import MovingAsymptotes.Proofs.Codec.Records
import MovingAsymptotes.Proofs.Kkt.Conditions
import MovingAsymptotes.Proofs.Distributed.Conditions
import MovingAsymptotes.Proofs.Diagnostics.Stored
