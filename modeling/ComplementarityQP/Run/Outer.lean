import ComplementarityQP.Run.Inner
import ComplementarityQP.Solution

/-! The penalty method. A first subproblem makes the point feasible; then the inner loop is run at
rising penalties until its point is complementary. -/
namespace ComplementarityQP

variable {K σ : Type}

def startVector [Special K] (name : String) (n : Nat) :
    Option (Array K) → Except (Fault K) (Option (Vec K n))
  | none => .ok none
  | some xs =>
    match Vec.ofArray? n xs with
    | none => .error (.startLength name xs.size n)
    | some x => if x.allFinite then .ok (some x) else .error (.startNonFinite name)

namespace Run

variable [Zero K] [One K] [Add K] [Sub K] [Neg K] [Mul K] [Div K] [LT K] [LE K] [DecidableLT K]
  [DecidableLE K] [OfScientific K]

def outerRecord {p : Problem K} (phase : Phase) (it : Iterate p) (ρ stationarity : K)
    (pr : Progress K σ) : Record K where
  phase := phase
  outer := pr.outer
  inner := 0
  total := pr.total
  penalty := ρ
  complementarity := p.complementarity it.x
  stationarity := stationarity
  objective := p.objective it.x
  merit := p.merit ρ it.x
  stepLength := 0
  stepNorm := 0
  qpIterations := pr.qpIterations

def report {p : Problem K} (host : Host K σ) (o : Options K) (phase : Phase) (it : Iterate p)
    (ρ : K) (pr : Progress K σ) : Progress K σ :=
  pr.emit host o (outerRecord phase it ρ (p.stationarity ρ it) pr)

structure Ending (p : Problem K) where
  point : Iterate p
  penalty : K
  shift : K
  status : RunStatus

def close {p : Problem K} (host : Host K σ) (o : Options K) (e : Ending p) (kind : Stationarity)
    (stationarity : K) (pr : Progress K σ) : Solution K p.vars p.duals × σ :=
  let pr := pr.emit host o (outerRecord .terminated e.point e.penalty stationarity pr)
  let (elapsed, pr) := pr.elapsed host
  let stats : Stats K := {
    outer := pr.outer
    inner := pr.total
    qpIterations := pr.qpIterations
    finalPenalty := e.penalty
    history := pr.history
    complementarity := p.complementarity e.point.x
    stationarity
    objective := p.objective e.point.x
    shift := e.shift
    lastQp := pr.lastQp
    elapsed
    trace := pr.trace }
  (⟨e.point.x, e.point.y, e.status, kind, stats⟩, pr.state)

def fail {p : Problem K} (host : Host K σ) (o : Options K) (e : Ending p) (pr : Progress K σ) :
    Solution K p.vars p.duals × σ :=
  close host o e .notSolved (p.stationarity e.penalty e.point) pr

/-- Ends with a solution whose multipliers are those of the problem itself. -/
def succeed [Special K] {p : Problem K} (host : Host K σ) (o : Options K) (e : Ending p)
    (pr : Progress K σ) :
    Solution K p.vars p.duals × σ :=
  close host o e (p.classify o.complementarityTol e.point.x e.point.y)
    (p.residual e.point.x e.point.y).norm pr

/-- Ends a run whose multipliers are those of the penalty problem. -/
def finish [Special K] {p : Problem K} (host : Host K σ) (o : Options K) (e : Ending p)
    (pr : Progress K σ) :
    Solution K p.vars p.duals × σ :=
  if e.status.isSuccess then
    succeed host o { e with point := ⟨e.point.x, p.transformDuals e.penalty e.point.x e.point.y⟩ }
      pr
  else fail host o e pr

def verdict {p : Problem K} (o : Options K) (ρ : K) (r : InnerResult p) : Option RunStatus :=
  match r.status with
  | .failed _ => some .qpFailed
  | .aborted => some .aborted
  | .stationary =>
    if r.complementarity ≤ o.complementarityTol then some .success
    else if o.maxPenalty ≤ ρ then some .maxPenalty
    else none
  | .iterationLimit => if o.maxPenalty ≤ ρ then some .maxIterations else none
  | .penaltyIncrease => none

def raise (o : Options K) (ρ : K) : K := atMost o.maxPenalty (ρ * o.penaltyGrowth)

/-- The starting penalty: the one asked for, moved into the allowed interval. -/
def startPenalty (o : Options K) : Option K → K
  | some ρ => clamp o.initialPenalty o.maxPenalty ρ
  | none => o.initialPenalty

section Loop

variable [Special K] [BEq K]

def loop {p : Problem K} (host : Host K σ) (o : Options K) (sub : Subproblem p) :
    Nat → K → Iterate p → Progress K σ → Ending p × Progress K σ
  | left, ρ, it, pr =>
    match pr.shouldAbort host o with
    | (true, pr) => (⟨it, ρ, sub.shift, .aborted⟩, pr)
    | (false, pr) =>
      match left with
      | 0 => (⟨it, ρ, sub.shift, .maxIterations⟩, pr)
      | left + 1 =>
        let (r, pr) := InnerLoop.run host o sub ρ it { pr with outer := pr.outer + 1 }
        match verdict o ρ r with
        | some status => (⟨r.point, ρ, sub.shift, status⟩, pr)
        | none =>
          let ρ := raise o ρ
          let pr := { pr with history := pr.history ++ [ρ] }
          loop host o sub left ρ r.point (report host o .penaltyUpdate r.point ρ pr)

/-- The run proper, from checked vectors: the first subproblem, then the loop. -/
def fromPoint {p : Problem K} (host : Host K σ) (o : Options K) (sub : Subproblem p)
    (x0 : Option (Vec K p.vars)) (y0 : Option (Vec K p.duals)) (ρ : K) (pr : Progress K σ) :
    Solution K p.vars p.duals × σ :=
  let pr := { pr with history := pr.history ++ [ρ] }
  let it : Iterate p := ⟨x0.getD (Vec.zero _), y0.getD (Vec.zero _)⟩
  let qp := if x0.isNone && o.zeroPenaltyFirst then sub.unpenalized it.x else sub.penalized it.x ρ
  match pr.solveAt host sub qp it.x it.y with
  | (.error _, pr) => fail host o ⟨it, ρ, sub.shift, .initialFailed⟩ pr
  | (.ok a, pr) =>
    let it : Iterate p := ⟨a.x, a.y⟩
    let pr := report host o .initialization it ρ { pr with total := pr.total + 1 }
    let (e, pr) := loop host o sub o.maxOuter ρ it pr
    finish host o e pr

variable [Root K]

/-- Solves a problem from a given start. A start that is already a solution is returned as it is. -/
def runFrom (host : Host K σ) (o : Options K) (p : Problem K) (w : WarmStart K) (s : σ) :
    Solution K p.vars p.duals × σ :=
  let pr := Progress.start host s
  let zero : Iterate p := ⟨Vec.zero _, Vec.zero _⟩
  let penalty := w.penalty.filter isFinite
  match startVector "x" p.vars w.x, startVector "y" p.duals w.y with
  | .error _, _ | _, .error _ => fail host o ⟨zero, o.initialPenalty, 0, .invalid⟩ pr
  | .ok x0, .ok y0 =>
    let certified? : Option (Iterate p) := do
      let x ← x0
      let y ← y0
      if p.certified o x y then some ⟨x, y⟩ else none
    match certified? with
    | some it => succeed host o ⟨it, penalty.getD o.initialPenalty, 0, .success⟩ pr
    | none =>
      match Subproblem.build p host.backend.needsDefinite o with
      | .error _ =>
        fail host o ⟨⟨x0.getD zero.x, y0.getD zero.y⟩, o.initialPenalty, 0, .qpFailed⟩ pr
      | .ok sub => fromPoint host o sub x0 y0 (startPenalty o penalty) pr

def run (host : Host K σ) (o : Options K) (p : Problem K) (s : σ) : Solution K p.vars p.duals × σ :=
  runFrom host o p (.ofProblem p) s

/-- Runs one inner loop outside of the penalty schedule. -/
def innerFrom (host : Host K σ) (o : Options K) (p : Problem K) (ρ : K) (x y : Array K) (s : σ) :
    Except (Fault K) (InnerResult p × σ) := do
  require (isFinite ρ && decide (0 ≤ ρ)) (.badPenalty ρ)
  let x ← startVector "x" p.vars (some x)
  let y ← startVector "y" p.duals (some y)
  let sub ← Subproblem.build p host.backend.needsDefinite o
  let (r, pr) :=
    InnerLoop.run host o sub ρ ⟨x.getD (Vec.zero _), y.getD (Vec.zero _)⟩ (.start host s)
  pure (r, pr.state)

end Loop

end Run

end ComplementarityQP
