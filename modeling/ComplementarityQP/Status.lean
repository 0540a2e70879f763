import ComplementarityQP.Json.Decode

/-! The outcomes of quadratic programs, of runs and of stationarity tests, and their names. -/
namespace ComplementarityQP

inductive QpStatus where
  | solved | infeasible | unbounded | maxIterations | numericalError
deriving Repr, DecidableEq

namespace QpStatus

def isSolved (s : QpStatus) : Bool := s = .solved

def names : List (String × QpStatus) :=
  [("Solved", .solved), ("Infeasible", .infeasible), ("Unbounded", .unbounded),
   ("MaxIterations", .maxIterations), ("NumericalError", .numericalError)]

def name : QpStatus → String
  | .solved => "Solved"
  | .infeasible => "Infeasible"
  | .unbounded => "Unbounded"
  | .maxIterations => "MaxIterations"
  | .numericalError => "NumericalError"

def encode (s : QpStatus) : Json := .text s.name

def decode : Json → Option QpStatus := Json.asEnum names

end QpStatus

inductive RunStatus where
  /-- Stationary and complementary within tolerance. -/
  | success
  /-- The penalty is at its ceiling and the iterate is still not complementary. -/
  | maxPenalty
  /-- The outer or inner iteration limit is used up. -/
  | maxIterations
  /-- The first subproblem was not solved. -/
  | initialFailed
  /-- A later subproblem was not solved, or none could be built. -/
  | qpFailed
  /-- The starting point was rejected. -/
  | invalid
  /-- Cancelled, or out of time. -/
  | aborted
deriving Repr, DecidableEq

namespace RunStatus

def isSuccess (s : RunStatus) : Bool := s = .success

def hasIterate (s : RunStatus) : Bool := s ≠ .invalid && s ≠ .initialFailed

def label : RunStatus → String
  | .success => "SUCCESSFUL_RETURN"
  | .maxPenalty => "MAX_PENALTY_REACHED"
  | .maxIterations => "MAX_ITERATIONS_REACHED"
  | .initialFailed => "INITIAL_FAILED"
  | .qpFailed => "QP_SOLVER_FAILED"
  | .invalid => "INVALID_PROBLEM"
  | .aborted => "ABORTED"

/-- The name in documents, which differs from the label in one case. -/
def name : RunStatus → String
  | .initialFailed => "INITIAL_SUBPROBLEM_FAILED"
  | s => s.label

def all : List RunStatus :=
  [.success, .maxPenalty, .maxIterations, .initialFailed, .qpFailed, .invalid, .aborted]

def encode (s : RunStatus) : Json := .text s.name

def decode : Json → Option RunStatus := Json.asEnum (all.map fun s => (s.name, s))

end RunStatus

/-- Classes of complementary stationary points, from weakest to strongest. -/
inductive Stationarity where
  | notSolved | weak | clarke | mordukhovich | strong
deriving Repr, DecidableEq

namespace Stationarity

def all : List Stationarity := [.notSolved, .weak, .clarke, .mordukhovich, .strong]

def rank : Stationarity → Nat
  | .notSolved => 0
  | .weak => 1
  | .clarke => 2
  | .mordukhovich => 3
  | .strong => 4

def label : Stationarity → String
  | .notSolved => "-"
  | .weak => "W"
  | .clarke => "C"
  | .mordukhovich => "M"
  | .strong => "S"

def name : Stationarity → String
  | .notSolved => "NotSolved"
  | .weak => "Weak"
  | .clarke => "Clarke"
  | .mordukhovich => "Mordukhovich"
  | .strong => "Strong"

def encode (s : Stationarity) : Json := .text s.name

def decode : Json → Option Stationarity := Json.asEnum (all.map fun s => (s.name, s))

end Stationarity

inductive InnerStatus where
  /-- Stationary for the penalty problem at the current penalty. -/
  | stationary
  /-- Complementarity stagnates; a larger penalty is wanted. -/
  | penaltyIncrease
  | iterationLimit
  /-- A subproblem failed; without a status if the backend rejected it. -/
  | failed (status : Option QpStatus)
  | aborted
deriving Repr, DecidableEq

namespace InnerStatus

def plain : List (String × InnerStatus) :=
  [("Stationary", .stationary), ("PenaltyIncreaseRequested", .penaltyIncrease),
   ("IterationLimit", .iterationLimit), ("Aborted", .aborted)]

def encode : InnerStatus → Json
  | .stationary => .text "Stationary"
  | .penaltyIncrease => .text "PenaltyIncreaseRequested"
  | .iterationLimit => .text "IterationLimit"
  | .failed s => .record [("Failed", Json.opt QpStatus.encode s)]
  | .aborted => .text "Aborted"

def decode : Json → Option InnerStatus
  | .obj [(some "Failed", v)] => (Json.asOption QpStatus.decode v).map .failed
  | v => Json.asEnum plain v

end InnerStatus

inductive Phase where
  /-- After the first subproblem. -/
  | initialization
  /-- After one subproblem at a fixed penalty. -/
  | inner
  /-- The penalty was raised. -/
  | penaltyUpdate
  /-- The last record of a run. -/
  | terminated
deriving Repr, DecidableEq

namespace Phase

def all : List Phase := [.initialization, .inner, .penaltyUpdate, .terminated]

def name : Phase → String
  | .initialization => "Initialization"
  | .inner => "Inner"
  | .penaltyUpdate => "PenaltyUpdate"
  | .terminated => "Terminated"

def encode (p : Phase) : Json := .text p.name

def decode : Json → Option Phase := Json.asEnum (all.map fun p => (p.name, p))

end Phase

end ComplementarityQP
