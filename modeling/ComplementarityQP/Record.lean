import ComplementarityQP.Options
import ComplementarityQP.Status

/-! Records of a run's progress. -/
namespace ComplementarityQP

variable {K : Type}

structure Record (K : Type) where
  phase : Phase
  /-- Penalty levels begun so far. -/
  outer : Nat
  /-- Subproblems solved at this level, 0 in records that are not of the inner loop. -/
  inner : Nat
  /-- Subproblems solved in all. -/
  total : Nat
  penalty : K
  complementarity : K
  stationarity : K
  objective : K
  merit : K
  stepLength : K
  stepNorm : K
  /-- Iterations inside of the quadratic programs: of this one in inner records, of all of them
  otherwise. -/
  qpIterations : Nat

namespace Record

def isOuter (r : Record K) : Bool := r.phase ≠ .inner

def fields : List String :=
  ["phase", "outer_iteration", "inner_iteration", "total_iteration", "penalty", "complementarity",
   "stationarity", "objective", "merit", "step_length", "step_norm", "qp_iterations"]

def values (num : K → Json) (r : Record K) : List Json :=
  [r.phase.encode, .nat r.outer, .nat r.inner, .nat r.total, num r.penalty, num r.complementarity,
   num r.stationarity, num r.objective, num r.merit, num r.stepLength, num r.stepNorm,
   .nat r.qpIterations]

def encode (num : K → Json) (r : Record K) : Json := .record (fields.zip (r.values num))

def decode (v : Json) : Option (Record Float) := do
  let [a, b, c, d, e, f, g, h, i, j, k, l] ← Json.slots (Json.keys fields) v | none
  pure {
    phase := ← a.required Phase.decode
    outer := ← b.required Json.asSize
    inner := ← c.required Json.asSize
    total := ← d.required Json.asSize
    penalty := ← e.required Json.asFloat
    complementarity := ← f.required Json.asFloat
    stationarity := ← g.required Json.asFloat
    objective := ← h.required Json.asFloat
    merit := ← i.required Json.asFloat
    stepLength := ← j.required Json.asFloat
    stepNorm := ← k.required Json.asFloat
    qpIterations := ← l.required Json.asSize }

end Record

def Verbosity.shows (v : Verbosity) (r : Record K) : Bool :=
  match v with
  | .none => false
  | .outer => r.isOuter
  | .inner | .subproblem => true

end ComplementarityQP
