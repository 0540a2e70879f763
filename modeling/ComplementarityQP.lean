import ComplementarityQP.Backend
import ComplementarityQP.Bound
import ComplementarityQP.Certificate
import ComplementarityQP.Columns
import ComplementarityQP.Decimal.Binary
import ComplementarityQP.Decimal.Shortest
import ComplementarityQP.Decimal.Text
import ComplementarityQP.Fault
import ComplementarityQP.Json.Decode
import ComplementarityQP.Json.Reader
import ComplementarityQP.Json.Value
import ComplementarityQP.Json.Writer
import ComplementarityQP.Linear.Cholesky
import ComplementarityQP.Linear.Elimination
import ComplementarityQP.Linear.Rotation
import ComplementarityQP.Linear.Shape
import ComplementarityQP.Mat
import ComplementarityQP.Options
import ComplementarityQP.Problem
import ComplementarityQP.Problem.Document
import ComplementarityQP.Problem.Draft
import ComplementarityQP.Qp
import ComplementarityQP.Qp.Conic
import ComplementarityQP.Qp.Dense
import ComplementarityQP.Qp.DualActiveSet
import ComplementarityQP.Qp.InteriorPoint
import ComplementarityQP.Qp.Sparse
import ComplementarityQP.Qp.Split
import ComplementarityQP.Record
import ComplementarityQP.Run.Inner
import ComplementarityQP.Run.Outer
import ComplementarityQP.Run.Progress
import ComplementarityQP.Scalar
import ComplementarityQP.Session
import ComplementarityQP.Solution
import ComplementarityQP.Status
import ComplementarityQP.Subproblem
import ComplementarityQP.Vec
import ComplementarityQP.Proofs.Assembly
import ComplementarityQP.Proofs.Cancellation
import ComplementarityQP.Proofs.Classes
import ComplementarityQP.Proofs.Codecs
import ComplementarityQP.Proofs.ColdSolve
import ComplementarityQP.Proofs.Compression
import ComplementarityQP.Proofs.Coupling
import ComplementarityQP.Proofs.Course
import ComplementarityQP.Proofs.Descent
import ComplementarityQP.Proofs.Diagnostics
import ComplementarityQP.Proofs.Documents
import ComplementarityQP.Proofs.Effort
import ComplementarityQP.Proofs.Elimination
import ComplementarityQP.Proofs.Evidence
import ComplementarityQP.Proofs.Exact
import ComplementarityQP.Proofs.Faces
import ComplementarityQP.Proofs.Feasibility
import ComplementarityQP.Proofs.FinalPenalty
import ComplementarityQP.Proofs.FixedPoint
import ComplementarityQP.Proofs.FloatOrder
import ComplementarityQP.Proofs.Folding
import ComplementarityQP.Proofs.HintVerdict
import ComplementarityQP.Proofs.Iteration
import ComplementarityQP.Proofs.Journal
import ComplementarityQP.Proofs.LastIterate
import ComplementarityQP.Proofs.LastStatus
import ComplementarityQP.Proofs.Levels
import ComplementarityQP.Proofs.LineSearch
import ComplementarityQP.Proofs.Merit
import ComplementarityQP.Proofs.Multipliers
import ComplementarityQP.Proofs.Numerals
import ComplementarityQP.Proofs.Optimality
import ComplementarityQP.Proofs.Options
import ComplementarityQP.Proofs.Pairwise
import ComplementarityQP.Proofs.Penalties
import ComplementarityQP.Proofs.Progress
import ComplementarityQP.Proofs.Proximal
import ComplementarityQP.Proofs.Recession
import ComplementarityQP.Proofs.Reload
import ComplementarityQP.Proofs.Replay
import ComplementarityQP.Proofs.Report
import ComplementarityQP.Proofs.Representation
import ComplementarityQP.Proofs.Requests
import ComplementarityQP.Proofs.Restart
import ComplementarityQP.Proofs.Rounding
import ComplementarityQP.Proofs.Rows
import ComplementarityQP.Proofs.Scanner
import ComplementarityQP.Proofs.Scatter
import ComplementarityQP.Proofs.Shifts
import ComplementarityQP.Proofs.Simulation
import ComplementarityQP.Proofs.Sizes
import ComplementarityQP.Proofs.Snap
import ComplementarityQP.Proofs.Spelling
import ComplementarityQP.Proofs.Stagnation
import ComplementarityQP.Proofs.Supplied
import ComplementarityQP.Proofs.Texts
import ComplementarityQP.Proofs.Token
import ComplementarityQP.Proofs.Tolerances
import ComplementarityQP.Proofs.Trace
import ComplementarityQP.Proofs.Translation
import ComplementarityQP.Proofs.Unpaired
import ComplementarityQP.Proofs.WarmGuess
