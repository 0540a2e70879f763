import ComplementarityQP.Problem
import ComplementarityQP.Record

/-! The outcome of a run, and the starting points of runs. -/
namespace ComplementarityQP

variable {K : Type} {n m : Nat}

/-- Where a run starts. Vectors are not checked before the run. -/
structure WarmStart (K : Type) where
  x : Option (Array K)
  y : Option (Array K)
  /-- The starting penalty, moved into the allowed interval by the run. -/
  penalty : Option K

namespace WarmStart

def ofProblem (p : Problem K) : WarmStart K :=
  ⟨p.x0.map Vector.toArray, p.y0.map Vector.toArray, none⟩

def primal (x : Array K) : WarmStart K := ⟨some x, none, none⟩

def fields : List String := ["x", "y", "penalty"]

def encode (num : K → Json) (w : WarmStart K) : Json :=
  .record (fields.zip [Json.opt (Json.array num) w.x, Json.opt (Json.array num) w.y,
    Json.opt num w.penalty])

def decode (v : Json) : Option (WarmStart Float) := do
  let [x, y, p] ← Json.slots (Json.keys fields) v | none
  pure ⟨← x.optional (Json.asArray Json.asFloat), ← y.optional (Json.asArray Json.asFloat),
    ← p.optional Json.asFloat⟩

end WarmStart

structure Stats (K : Type) where
  /-- Penalty levels whose inner loop was run. -/
  outer : Nat
  /-- Subproblems solved, the initial one included. -/
  inner : Nat
  /-- Iterations inside of the quadratic programs. -/
  qpIterations : Nat
  finalPenalty : K
  /-- Every penalty used, in order. -/
  history : List K
  complementarity : K
  stationarity : K
  objective : K
  /-- The diagonal shift of the Hessian. -/
  shift : K
  lastQp : Option QpStatus
  elapsed : K
  /-- Every record, if the options ask for it. -/
  trace : List (Record K)

namespace Stats

def fields : List String :=
  ["outer_iterations", "inner_iterations", "qp_iterations", "final_penalty", "penalty_history",
   "complementarity", "stationarity", "objective", "regularization", "last_qp_status",
   "elapsed_seconds", "trace"]

def encode (num : K → Json) (s : Stats K) : Json :=
  .record (fields.zip [
    .nat s.outer, .nat s.inner, .nat s.qpIterations, num s.finalPenalty, Json.list num s.history,
    num s.complementarity, num s.stationarity, num s.objective, num s.shift,
    Json.opt QpStatus.encode s.lastQp, num s.elapsed, Json.list (Record.encode num) s.trace])

def decode (v : Json) : Option (Stats Float) := do
  let [a, b, c, d, e, f, g, h, i, j, k, l] ← Json.slots (Json.keys fields) v | none
  pure {
    outer := ← a.required Json.asSize
    inner := ← b.required Json.asSize
    qpIterations := ← c.required Json.asSize
    finalPenalty := ← d.required Json.asFloat
    history := ← e.required (Json.asList Json.asFloat)
    complementarity := ← f.required Json.asFloat
    stationarity := ← g.required Json.asFloat
    objective := ← h.required Json.asFloat
    shift := ← i.required Json.asFloat
    lastQp := ← j.optional QpStatus.decode
    elapsed := ← k.required Json.asFloat
    trace := ← l.required (Json.asList Record.decode) }

end Stats

/-- The outcome of a run. It always carries a point; the status tells what the point is. -/
structure Solution (K : Type) (n m : Nat) where
  x : Vec K n
  /-- Multipliers of the problem itself after a success, of the penalty problem otherwise. -/
  y : Vec K m
  status : RunStatus
  stationarity : Stationarity
  stats : Stats K

namespace Solution

def generalDuals (s : Solution K n m) (p : Problem K) : List K := s.y.toList.take p.rows

/-- Multipliers of the two sides of the pairs; none if there are too few. -/
def pairDuals (s : Solution K n m) (p : Problem K) : List K × List K :=
  if m < p.duals then ([], [])
  else ((s.y.toList.drop p.rows).take p.pairs, (s.y.toList.drop (p.rows + p.pairs)).take p.pairs)

def warmStart (s : Solution K n m) : WarmStart K :=
  ⟨some s.x.toArray, some s.y.toArray, some s.stats.finalPenalty⟩

def fields : List String := ["x", "y", "status", "stationarity_type", "stats"]

def encode (num : K → Json) (s : Solution K n m) : Json :=
  .record (fields.zip [Json.array num s.x.toArray, Json.array num s.y.toArray, s.status.encode,
    s.stationarity.encode, s.stats.encode num])

def decode (v : Json) : Option ((n m : Nat) × Solution Float n m) := do
  let [x, y, s, t, st] ← Json.slots (Json.keys fields) v | none
  let x ← x.required (Json.asArray Json.asFloat)
  let y ← y.required (Json.asArray Json.asFloat)
  pure ⟨x.size, y.size, x.toVector, y.toVector, ← s.required RunStatus.decode,
    ← t.required Stationarity.decode, ← st.required Stats.decode⟩

end Solution

end ComplementarityQP
