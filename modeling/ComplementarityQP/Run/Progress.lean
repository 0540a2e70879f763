import ComplementarityQP.Backend
import ComplementarityQP.Subproblem

/-! What a run keeps count of, and its dealings with its surroundings. -/
namespace ComplementarityQP

variable {K σ : Type}

structure Progress (K σ : Type) where
  /-- Penalty levels begun. -/
  outer : Nat
  /-- Subproblems solved. -/
  total : Nat
  /-- Iterations that the solver reports; their sum is assumed to fit a word. -/
  qpIterations : Nat
  lastQp : Option QpStatus
  /-- Penalties used, in order. -/
  history : List K
  trace : List (Record K)
  started : K
  state : σ

namespace Progress

def start (host : Host K σ) (s : σ) : Progress K σ :=
  let (now, s) := host.clock s
  ⟨0, 0, 0, none, [], [], now, s⟩

def elapsed [Sub K] (host : Host K σ) (pr : Progress K σ) : K × Progress K σ :=
  let (now, s) := host.clock pr.state
  (now - pr.started, { pr with state := s })

def shouldAbort [Sub K] [LT K] [DecidableLT K] (host : Host K σ) (o : Options K)
    (pr : Progress K σ) :
    Bool × Progress K σ :=
  match host.cancelled pr.state with
  | (true, s) => (true, { pr with state := s })
  | (false, s) =>
    match o.timeLimit with
    | none => (false, { pr with state := s })
    | some limit =>
      let (t, pr) := elapsed host { pr with state := s }
      (decide (limit < t), pr)

def emit (host : Host K σ) (o : Options K) (r : Record K) (pr : Progress K σ) : Progress K σ :=
  { pr with
    state := if o.verbosity.shows r then host.observe r pr.state else pr.state
    trace := if o.storeSteps then pr.trace ++ [r] else pr.trace }

/-- Asks the solver. Fails with the status of an answer that is no solution, and without one if the
program was rejected. -/
def solveQp {n m : Nat} (host : Host K σ) (qp : Qp K n m) (hint : Hint K) (pr : Progress K σ) :
    Except (Option QpStatus) (Answer K n m) × Progress K σ :=
  match host.backend.solve qp (some hint) pr.state with
  | (.error _, s) => (.error none, { pr with state := s })
  | (.ok a, s) =>
    let pr :=
      { pr with
        qpIterations := pr.qpIterations + a.iterations, lastQp := some a.status, state := s }
    (if a.status.isSolved then .ok a else .error (some a.status), pr)

/-- Solves the subproblem `qp` at `x`. A solution that lies along a ray of the unshifted subproblem
counts as unbounded. -/
def solveAt [Zero K] [One K] [Add K] [Sub K] [Neg K] [Mul K] [Div K] [LT K] [LE K] [DecidableLT K]
    [DecidableLE K] [OfScientific K] [Special K] [BEq K] {p : Problem K} (host : Host K σ)
    (sub : Subproblem p) (qp : Qp K p.vars p.duals) (x : Vec K p.vars) (y : Vec K p.duals)
    (pr : Progress K σ) :
    Except (Option QpStatus) (Answer K p.vars p.duals) × Progress K σ :=
  match pr.solveQp host qp ⟨x.toArray, y.toArray⟩ with
  | (.error s, pr) => (.error s, pr)
  | (.ok a, pr) =>
    if sub.isRay qp x (a.x - x) then
      (.error (some .unbounded), { pr with lastQp := some .unbounded })
    else (.ok a, pr)

end Progress

end ComplementarityQP
