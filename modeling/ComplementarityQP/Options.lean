import ComplementarityQP.Fault
import ComplementarityQP.Json.Decode
import ComplementarityQP.Json.Reader

/-! Options of the solver, their defaults, their checks and their documents. -/
namespace ComplementarityQP

inductive Verbosity where
  | none | outer | inner
  /-- Inner records, and the output of the quadratic program solver itself. -/
  | subproblem
deriving Repr, DecidableEq

namespace Verbosity

def all : List Verbosity := [.none, .outer, .inner, .subproblem]

def name : Verbosity → String
  | .none => "None"
  | .outer => "OuterLoopIterates"
  | .inner => "InnerLoopIterates"
  | .subproblem => "SubproblemSolverIterates"

def encode (v : Verbosity) : Json := .text v.name

def decode : Json → Option Verbosity := Json.asEnum (all.map fun v => (v.name, v))

end Verbosity

inductive QpMethod where
  | denseActiveSet | sparseInteriorPoint
deriving Repr, DecidableEq

namespace QpMethod

def all : List QpMethod := [.denseActiveSet, .sparseInteriorPoint]

def name : QpMethod → String
  | .denseActiveSet => "DenseActiveSet"
  | .sparseInteriorPoint => "SparseInteriorPoint"

def encode (q : QpMethod) : Json := .text q.name

def decode : Json → Option QpMethod := Json.asEnum (all.map fun q => (q.name, q))

end QpMethod

structure QpSettings (K : Type) where
  maxIterations : Nat
  tolerance : K
  verbose : Bool

namespace QpSettings

variable {K : Type}

def default [OfScientific K] : QpSettings K := ⟨10000, 1e-9, false⟩

def fields : List String := ["max_iterations", "tolerance", "verbose"]

def encode (num : K → Json) (s : QpSettings K) : Json :=
  .record [("max_iterations", .nat s.maxIterations), ("tolerance", num s.tolerance),
    ("verbose", .bool s.verbose)]

def decode (v : Json) : Option (QpSettings Float) := do
  let [a, b, c] ← Json.slots (Json.keys fields) v | none
  pure ⟨← a.required (Json.asNat UInt32.size), ← b.required Json.asFloat, ← c.required Json.asBool⟩

end QpSettings

structure Options (K : Type) where
  /-- The inner loop stops once the stationarity residual is at most this. -/
  stationarityTol : K
  /-- Success needs a complementarity residual of at most this. -/
  complementarityTol : K
  initialPenalty : K
  penaltyGrowth : K
  /-- The penalty never exceeds this. -/
  maxPenalty : K
  /-- The number of penalty levels that may be visited. -/
  maxOuter : Nat
  /-- Subproblems at one penalty level. -/
  maxInner : Nat
  /-- Without a starting point, leave the penalty out of the first subproblem. -/
  zeroPenaltyFirst : Bool
  /-- The number of earlier values that the stagnation test looks at; 0 turns it off. -/
  window : Nat
  /-- The decrease that the stagnation test asks for. -/
  eta : K
  /-- Nudge iterates off symmetric saddle points of the merit. -/
  nudge : Bool
  /-- The inner loop also stops at a step of at most this. -/
  stepTol : K
  /-- The relative increase of the merit that a step without descent may cause. -/
  meritTol : K
  /-- The first diagonal shift, relative to the Hessian's diagonal. -/
  shiftInitial : K
  shiftGrowth : K
  shiftAttempts : Nat
  method : QpMethod
  qpMaxIterations : Nat
  qpTol : K
  verbosity : Verbosity
  timeLimit : Option K
  /-- Keep every record in the statistics. -/
  storeSteps : Bool

namespace Options

variable {K : Type}

def default [Mul K] [OfScientific K] : Options K where
  stationarityTol := 1e6 * epsilon
  complementarityTol := 1e3 * epsilon
  initialPenalty := 0.01
  penaltyGrowth := 2.0
  maxPenalty := 1e8
  maxOuter := 100
  maxInner := 1000
  zeroPenaltyFirst := true
  window := 3
  eta := 0.9
  nudge := true
  stepTol := 1e2 * epsilon
  meritTol := 1e3 * epsilon
  shiftInitial := 1e-8
  shiftGrowth := 10.0
  shiftAttempts := 10
  method := .denseActiveSet
  qpMaxIterations := 10000
  qpTol := 1e-10
  verbosity := .outer
  timeLimit := none
  storeSteps := false

section Checks

variable [Zero K] [One K] [LT K] [LE K] [DecidableLT K] [DecidableLE K] [Special K]

def requirePositive (name : String) (x : K) : Except (Fault K) Unit :=
  if 0 < x && isFinite x then .ok () else .error (.notPositive name x)

def requireNonNegative (name : String) (x : K) : Except (Fault K) Unit :=
  if 0 ≤ x && isFinite x then .ok () else .error (.negative name x)

def validate (o : Options K) : Except (Fault K) Unit := do
  requirePositive "stationarity_tolerance" o.stationarityTol
  requirePositive "complementarity_tolerance" o.complementarityTol
  requirePositive "initial_penalty" o.initialPenalty
  requirePositive "regularization_initial" o.shiftInitial
  requirePositive "qp_tolerance" o.qpTol
  requireNonNegative "step_tolerance" o.stepTol
  requireNonNegative "merit_tolerance" o.meritTol
  require (1 < o.penaltyGrowth && isFinite o.penaltyGrowth) (.growthFactor o.penaltyGrowth)
  require (o.initialPenalty ≤ o.maxPenalty && isFinite o.maxPenalty)
    (.maxPenalty o.maxPenalty o.initialPenalty)
  require (o.maxOuter ≠ 0 && o.maxInner ≠ 0) .iterationLimits
  require (o.window = 0 || (0 < o.eta && o.eta < 1)) (.decreaseFactor o.eta)
  require (1 < o.shiftGrowth && o.shiftAttempts ≠ 0) .regularizationOptions
  require (o.qpMaxIterations ≠ 0) .qpIterations
  match o.timeLimit with
  | some limit => requirePositive "time_limit_seconds" limit
  | none => .ok ()

end Checks

def qpSettings (o : Options K) : QpSettings K where
  maxIterations := o.qpMaxIterations
  tolerance := o.qpTol
  verbose := o.verbosity = .subproblem

def fields : List String :=
  ["stationarity_tolerance", "complementarity_tolerance", "initial_penalty",
    "penalty_growth_factor", "max_penalty", "max_outer_iterations", "max_inner_iterations",
    "solve_zero_penalty_first", "dynamic_penalty_window", "dynamic_penalty_eta", "perturb_step",
    "step_tolerance", "merit_tolerance", "regularization_initial", "regularization_growth",
   "regularization_max_attempts", "qp_backend", "qp_max_iterations", "qp_tolerance", "verbosity",
   "time_limit_seconds", "store_steps"]

def encode (num : K → Json) (o : Options K) : Json :=
  .record (fields.zip [
    num o.stationarityTol, num o.complementarityTol, num o.initialPenalty, num o.penaltyGrowth,
    num o.maxPenalty, .nat o.maxOuter, .nat o.maxInner, .bool o.zeroPenaltyFirst, .nat o.window,
    num o.eta, .bool o.nudge, num o.stepTol, num o.meritTol, num o.shiftInitial, num o.shiftGrowth,
    .nat o.shiftAttempts, o.method.encode, .nat o.qpMaxIterations, num o.qpTol, o.verbosity.encode,
    Json.opt num o.timeLimit, .bool o.storeSteps])

/-- Fields that a document leaves out keep their defaults. -/
def decode (v : Json) : Option (Options Float) := do
  let [a, b, c, d, e, f, g, h, i, j, k, l, m, n, o, p, q, r, s, t, u, w] ←
    Json.slots (Json.keys fields) v | none
  let z : Options Float := default
  pure {
    stationarityTol := ← a.orElse z.stationarityTol Json.asFloat
    complementarityTol := ← b.orElse z.complementarityTol Json.asFloat
    initialPenalty := ← c.orElse z.initialPenalty Json.asFloat
    penaltyGrowth := ← d.orElse z.penaltyGrowth Json.asFloat
    maxPenalty := ← e.orElse z.maxPenalty Json.asFloat
    maxOuter := ← f.orElse z.maxOuter Json.asSize
    maxInner := ← g.orElse z.maxInner Json.asSize
    zeroPenaltyFirst := ← h.orElse z.zeroPenaltyFirst Json.asBool
    window := ← i.orElse z.window Json.asSize
    eta := ← j.orElse z.eta Json.asFloat
    nudge := ← k.orElse z.nudge Json.asBool
    stepTol := ← l.orElse z.stepTol Json.asFloat
    meritTol := ← m.orElse z.meritTol Json.asFloat
    shiftInitial := ← n.orElse z.shiftInitial Json.asFloat
    shiftGrowth := ← o.orElse z.shiftGrowth Json.asFloat
    shiftAttempts := ← p.orElse z.shiftAttempts Json.asSize
    method := ← q.orElse z.method QpMethod.decode
    qpMaxIterations := ← r.orElse z.qpMaxIterations (Json.asNat UInt32.size)
    qpTol := ← s.orElse z.qpTol Json.asFloat
    verbosity := ← t.orElse z.verbosity Verbosity.decode
    timeLimit := ← u.orElse z.timeLimit (Json.asOption Json.asFloat)
    storeSteps := ← w.orElse z.storeSteps Json.asBool }

def ofJson (v : Json) : Except (Fault Float) (Options Float) :=
  match decode v with
  | none => .error .malformedText
  | some o => do
    o.validate
    pure o

def ofText (s : String) : Except (Fault Float) (Options Float) :=
  match Json.parse? s with
  | none => .error .malformedText
  | some v => ofJson v

/-- The options with the numerical option of that name replaced, unchecked. -/
def withScalar (o : Options K) (name : String) (x : K) : Option (Options K) :=
  match name with
  | "stationarity_tolerance" => some { o with stationarityTol := x }
  | "complementarity_tolerance" => some { o with complementarityTol := x }
  | "initial_penalty" => some { o with initialPenalty := x }
  | "penalty_growth_factor" => some { o with penaltyGrowth := x }
  | "max_penalty" => some { o with maxPenalty := x }
  | "dynamic_penalty_eta" => some { o with eta := x }
  | "step_tolerance" => some { o with stepTol := x }
  | "merit_tolerance" => some { o with meritTol := x }
  | "regularization_initial" => some { o with shiftInitial := x }
  | "regularization_growth" => some { o with shiftGrowth := x }
  | "qp_tolerance" => some { o with qpTol := x }
  | "time_limit_seconds" => some { o with timeLimit := some x }
  | _ => none

end Options

end ComplementarityQP
