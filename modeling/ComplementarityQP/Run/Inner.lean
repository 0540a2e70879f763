import ComplementarityQP.Certificate
import ComplementarityQP.Run.Progress

/-! The inner loop: subproblems at one penalty `ρ`, with an exact line search on the merit, until
the point is stationary for the penalty problem. -/
namespace ComplementarityQP

variable {K σ : Type}

/-- Enters `current` into a window of the last `size` values, and tells whether it stagnates: the
window is full, the value is not satisfactory, and it is at least `η` times every value in the
window. -/
def Window.push [Mul K] [LE K] [DecidableLE K] (size : Nat) (η : K) (values : List K) (current : K)
    (satisfied : Bool) : Bool × List K :=
  if size = 0 then (false, values)
  else if values.length < size then (false, values ++ [current])
  else (!satisfied && values.all (fun prev => η * prev ≤ current), values.tail ++ [current])

/-- A point with its multipliers, in the form of the penalty problem. -/
structure Iterate (p : Problem K) where
  x : Vec K p.vars
  y : Vec K p.duals

namespace Problem

variable [Zero K] [One K] [Add K] [Sub K] [Neg K] [Mul K] [Div K] [LT K] [LE K] [DecidableLT K]
  [DecidableLE K] [OfScientific K]

def slope (p : Problem K) (ρ : K) (x d : Vec K p.vars) : K :=
  d.dot ((p.cost.gradient x).shift ρ (p.coupling.gradient x))

def curvature (p : Problem K) (ρ : K) (d : Vec K p.vars) : K :=
  d.dot ((p.cost.hess.mulVec d).shift ρ (p.coupling.hess.mulVec d))

/-- The step along `d` that minimises the merit, at most a full one. Along a direction without
descent it is a full step if that raises the merit by at most `allowance`, and none otherwise. -/
def stepLength (p : Problem K) (ρ : K) (x d : Vec K p.vars) (allowance : K) : K :=
  let slope := p.slope ρ x d
  let curvature := p.curvature ρ d
  if slope < 0 then
    if 0 < curvature then atMost 1 (-slope / curvature) else 1
  else if slope + 0.5 * curvature ≤ allowance then 1
  else 0

/-- The direction of the nudge of component `i`, which cycles through down, none and up. -/
def nudgeSign (i : Nat) : K :=
  match i % 3 with
  | 0 => -1
  | 1 => 0
  | _ => 1

/-- A relative nudge by the smallest amount that shows. -/
def nudge (p : Problem K) (iteration : Nat) (x : Vec K p.vars) : Vec K p.vars :=
  Vector.ofFn fun i => x.get i + nudgeSign (i.val + iteration) * epsilon * atLeast 1
    (magnitude (x.get i))

def meritBudget (p : Problem K) (o : Options K) (ρ : K) (x : Vec K p.vars) : K :=
  o.meritTol * atLeast 1 (magnitude (p.merit ρ x))

/-- The point that an iteration linearizes at: `x`, nudged off symmetric saddle points unless that
raises the merit too much. -/
def nudged (p : Problem K) (o : Options K) (ρ : K) (iteration : Nat) (x : Vec K p.vars) :
    Vec K p.vars :=
  if o.nudge && decide (0 < p.pairs) then
    let x' := p.nudge iteration x
    if p.merit ρ x' - p.merit ρ x ≤ p.meritBudget o ρ x then x' else x
  else x

def stationarity (p : Problem K) (ρ : K) (it : Iterate p) : K :=
  (p.penaltyResidual ρ it.x it.y).norm

end Problem

structure InnerLoop (p : Problem K) where
  point : Iterate p
  iterations : Nat
  stationarity : K
  complementarity : K
  window : List K

structure InnerResult (p : Problem K) where
  point : Iterate p
  status : InnerStatus
  iterations : Nat
  stationarity : K
  complementarity : K

namespace InnerLoop

variable {p : Problem K} [Zero K] [One K] [Add K] [Sub K] [Neg K] [Mul K] [Div K] [LT K] [LE K]
  [DecidableLT K] [DecidableLE K] [OfScientific K]

def start (p : Problem K) (ρ : K) (it : Iterate p) : InnerLoop p :=
  ⟨it, 0, p.stationarity ρ it, p.complementarity it.x, []⟩

def result (l : InnerLoop p) (status : InnerStatus) : InnerResult p :=
  ⟨l.point, status, l.iterations, l.stationarity, l.complementarity⟩

def exit (o : Options K) (ρ : K) (stepNorm : K) (l : InnerLoop p) :
    Option InnerStatus × InnerLoop p :=
  if l.stationarity ≤ o.stationarityTol || stepNorm ≤ o.stepTol then (some .stationary, l)
  else if ρ < o.maxPenalty then
    let (stagnates, window) :=
      Window.push o.window o.eta l.window l.complementarity
        (l.complementarity ≤ o.complementarityTol)
    (if stagnates then some .penaltyIncrease else none, { l with window })
  else (none, l)

def accept (host : Host K σ) (o : Options K) (ρ : K) (l : InnerLoop p) (x : Vec K p.vars)
    (allowance : K) (a : Answer K p.vars p.duals) (qpIterations : Nat) (pr : Progress K σ) :
    K × InnerLoop p × Progress K σ :=
  let d : Vec K p.vars := a.x - x
  let α := p.stepLength ρ x d allowance
  let point : Iterate p := ⟨x.shift α d, a.y⟩
  let stepNorm := α * d.norm
  let l := { l with
    point
    iterations := l.iterations + 1
    stationarity := p.stationarity ρ point
    complementarity := p.complementarity point.x }
  let pr := { pr with total := pr.total + 1 }
  let pr := pr.emit host o {
    phase := .inner
    outer := pr.outer
    inner := l.iterations
    total := pr.total
    penalty := ρ
    complementarity := l.complementarity
    stationarity := l.stationarity
    objective := p.objective point.x
    merit := p.merit ρ point.x
    stepLength := α
    stepNorm
    qpIterations }
  (stepNorm, l, pr)

variable [Special K] [BEq K]

/-- One iteration: nudge, linearize, solve, step. -/
def iterate (host : Host K σ) (o : Options K) (sub : Subproblem p) (ρ : K) (l : InnerLoop p)
    (pr : Progress K σ) : Option InnerStatus × InnerLoop p × Progress K σ :=
  match pr.shouldAbort host o with
  | (true, pr) => (some .aborted, l, pr)
  | (false, pr) =>
    let x := p.nudged o ρ pr.total l.point.x
    let allowance := p.merit ρ l.point.x + p.meritBudget o ρ l.point.x - p.merit ρ x
    let l := { l with point := ⟨x, l.point.y⟩ }
    let before := pr.qpIterations
    match pr.solveAt host sub (sub.penalized x ρ) x l.point.y with
    | (.error s, pr) => (some (.failed s), l, pr)
    | (.ok a, pr) =>
      let (stepNorm, l, pr) := l.accept host o ρ x allowance a (pr.qpIterations - before) pr
      let (status, l) := l.exit o ρ stepNorm
      (status, l, pr)

def loop (host : Host K σ) (o : Options K) (sub : Subproblem p) (ρ : K) :
    Nat → InnerLoop p → Progress K σ → InnerResult p × Progress K σ
  | left, l, pr =>
    match l.iterate host o sub ρ pr with
    | (some status, l, pr) => (l.result status, pr)
    | (none, l, pr) =>
      match left with
      | 0 => (l.result .iterationLimit, pr)
      | left + 1 => loop host o sub ρ left l pr

def run (host : Host K σ) (o : Options K) (sub : Subproblem p) (ρ : K) (it : Iterate p)
    (pr : Progress K σ) :
    InnerResult p × Progress K σ :=
  loop host o sub ρ (o.maxInner - 1) (start p ρ it) pr

end InnerLoop

end ComplementarityQP
