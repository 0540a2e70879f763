import ComplementarityQP.Linear.Elimination
import ComplementarityQP.Options
import ComplementarityQP.Qp.Conic

/-! A primal-dual interior point method on the homogeneous embedding of a convex program

min `½ xᵀ P x + qᵀ x` subject to `A x + s = b`, `s` zero on the equalities and non-negative
elsewhere.

The embedding has two more unknowns: with `τ > 0` in the limit the quotients by `τ` are a solution,
and with `κ > 0` the limit certifies that there is none. -/
namespace ComplementarityQP

variable {K : Type} {n k : Nat}

structure ConicAnswer (K : Type) (n k : Nat) where
  x : Vec K n
  z : Vec K k
  status : QpStatus
  objective : K
  iterations : Nat

namespace InteriorPoint

/-- A point of the embedding, or a step between two. -/
structure Point (K : Type) (n k : Nat) where
  x : Vec K n
  z : Vec K k
  s : Vec K k
  τ : K
  κ : K

variable [Zero K] [One K] [Add K] [Sub K] [Neg K] [Mul K] [Div K] [LT K] [LE K] [DecidableLT K]
  [DecidableLE K] [OfScientific K] [Special K]

/-- Added to the diagonal so that every pivot exists; refinement removes its effect. -/
def shift : K := 1e-8

/-- The optimality system for the quotients `h` of slack and multiplier. -/
def system (prog : SplitQp K n k) (h : Vec K k) (ε : K) : Mat K (n + k) (n + k) :=
  Mat.ofFn (Fin.addCases
    (fun i => Fin.addCases (fun j => prog.cost.hess i j + if i = j then ε else 0) fun j =>
      prog.normals j i)
    fun i => Fin.addCases (fun j => prog.normals i j) fun j => if i = j then -(h.get i + ε) else 0)

/-- Improves `v` as a solution of `M v = b`, for as long as a round leaves at most a fifth of the
residual. -/
def refine {N : Nat} (M inv : Mat K N N) (b : Vec K N) : Nat → Vec K N → Vec K N
  | 0, v => v
  | rounds + 1, v =>
    let r : Vec K N := b - M.mulVec v
    let v' := v + inv.mulVec r
    let left := (b - M.mulVec v').norm
    if 5.0 * left < r.norm then refine M inv b rounds v' else if left < r.norm then v' else v

structure Factored (K : Type) (N : Nat) where
  exact : Mat K N N
  inverse : Mat K N N

def factor (prog : SplitQp K n k) (h : Vec K k) : Option (Factored K (n + k)) :=
  (system prog h shift).inverse?.map fun inverse => ⟨system prog h 0, inverse⟩

def Factored.solve (f : Factored K (n + k)) (a : Vec K n) (b : Vec K k) : Vec K n × Vec K k :=
  let rhs := a.join b
  let v := refine f.exact f.inverse rhs 10 (f.inverse.mulVec rhs)
  (Vector.ofFn fun i => v.get (i.castAdd k), Vector.ofFn fun i => v.get (i.natAdd n))

def inCone (prog : SplitQp K n k) (i : Fin k) : Bool := prog.equalities ≤ i.val

def conePart (prog : SplitQp K n k) (v : Vec K k) : List K :=
  ((List.finRange k).filter (inCone prog)).map fun i => v.get i

/-- Adds a constant on the inequalities, so that all entries are safely positive there. -/
def intoCone (prog : SplitQp K n k) (v : Vec K k) : Vec K k :=
  match conePart prog v with
  | [] => v
  | w :: ws =>
    let least := ws.foldl atMost w
    let positive := (w :: ws).foldl (fun t w => t + atLeast 0 w) 0
    let target := atLeast 1 (0.1 * positive / sum (ws.length + 1) fun _ => 1)
    if target ≤ least then v
    else Vector.ofFn fun i => if inCone prog i then v.get i - least + target else v.get i

/-- The solution of the equality constrained problem with unit quotients, moved into the cone. -/
def start (prog : SplitQp K n k) : Option (Point K n k) :=
  let h : Vec K k := Vector.ofFn fun i => if inCone prog i then 1 else 0
  (factor prog h).map fun f =>
    let (x, z) := f.solve (-prog.cost.lin) prog.rhs
    let s : Vec K k := Vector.ofFn fun i => if inCone prog i then -(z.get i) else 0
    ⟨x, intoCone prog z, intoCone prog s, 1, 1⟩

/-- What a point lacks of being a solution of the embedding. -/
structure Residuals (K : Type) (n k : Nat) where
  dual : Vec K n
  primal : Vec K k
  gap : K

def residuals (prog : SplitQp K n k) (p : Point K n k) : Residuals K n k :=
  let Px := prog.cost.hess.mulVec p.x
  { dual := -(prog.normals.transposeMulVec p.z) - Px - prog.cost.lin.scale p.τ
    primal := prog.normals.mulVec p.x + p.s - prog.rhs.scale p.τ
    gap := prog.cost.lin.dot p.x + prog.rhs.dot p.z + p.κ + p.x.dot Px / p.τ }

/-- The Newton step that takes off the residuals `r`, the products `w` of slack and multiplier, and
the product `wτ` of `τ` and `κ`. -/
def newton (prog : SplitQp K n k) (f : Factored K (n + k)) (p : Point K n k) (r : Residuals K n k)
    (w : Vec K k) (wτ : K) : Point K n k :=
  let P := prog.cost.hess
  let q := prog.cost.lin
  let b := prog.rhs
  let offset : Vec K k := Vector.ofFn fun i => if inCone prog i then w.get i / p.z.get i else 0
  let (x1, z1) := f.solve r.dual (offset - r.primal)
  let (x2, z2) := f.solve (-q) b
  let ξ : Vec K n := p.x.map (· / p.τ)
  let away : Vec K n := ξ - x2
  let num := r.gap - wτ / p.τ + q.dot x1 + b.dot z1 + (1 + 1) * ξ.dot (P.mulVec x1)
  let den := p.κ / p.τ - q.dot x2 - b.dot z2 + away.dot (P.mulVec away) - x2.dot (P.mulVec x2)
  let dτ := num / den
  let dz := z1.shift dτ z2
  { x := x1.shift dτ x2
    z := dz
    s :=
      Vector.ofFn fun i =>
        if inCone prog i then -(p.s.get i / p.z.get i * dz.get i + offset.get i) else 0
    τ := dτ
    κ := -(wτ + p.κ * dτ) / p.τ }

/-- How far `v` can go along `d` before it is negative, at most `limit`. -/
def reach (v d limit : K) : K := if d < 0 then atMost limit (-(v / d)) else limit

def stepLength (prog : SplitQp K n k) (p d : Point K n k) : K :=
  (List.finRange k).foldl (fun a i =>
    if inCone prog i then reach (p.s.get i) (d.s.get i) (reach (p.z.get i) (d.z.get i) a) else a)
    (reach p.τ d.τ (reach p.κ d.κ 1))

def Point.advance (p d : Point K n k) (a : K) : Point K n k :=
  ⟨p.x.shift a d.x, p.z.shift a d.z, p.s.shift a d.s, p.τ + a * d.τ, p.κ + a * d.κ⟩

/-- The mean product of a slack and its multiplier, `τ` and `κ` included. -/
def centrality (prog : SplitQp K n k) (p : Point K n k) : K :=
  (p.s.dot p.z + p.τ * p.κ) / sum (k - prog.equalities + 1) fun _ => 1

/-- A predictor step, and then a step that also takes its second order terms off and keeps to the
middle of the cone, the more so the shorter the predictor was. `none` if the system has no
solution. -/
def step (prog : SplitQp K n k) (p : Point K n k) : Option (Point K n k × K) :=
  let h : Vec K k := Vector.ofFn fun i => if inCone prog i then p.s.get i / p.z.get i else 0
  (factor prog h).map fun f =>
    let r := residuals prog p
    let products : Vec K k := Vector.ofFn fun i => p.s.get i * p.z.get i
    let predictor := newton prog f p r products (p.τ * p.κ)
    let a := stepLength prog p predictor
    let σ := (1 - a) * (1 - a) * (1 - a)
    let bend : Vec K n := predictor.x.shift (-(predictor.τ / p.τ)) p.x
    let target := σ * centrality prog p
    let keep : Residuals K n k :=
      ⟨r.dual.scale (1 - σ), r.primal.scale (1 - σ),
        (1 - σ) * r.gap + bend.dot (prog.cost.hess.mulVec bend) / p.τ⟩
    let d := newton prog f p keep
      (Vector.ofFn fun i => products.get i + predictor.s.get i * predictor.z.get i - target)
      (p.τ * p.κ + predictor.τ * predictor.κ - target)
    let a := 0.99 * stepLength prog p d
    (p.advance d a, a)

/-- How good a point is: relative residuals and the gap between the two objectives. -/
structure Quality (K : Type) where
  primal : K
  dual : K
  gap : K
  relativeGap : K

def objective (prog : SplitQp K n k) (p : Point K n k) : K := prog.cost.value (p.x.map (· / p.τ))

def quality (prog : SplitQp K n k) (p : Point K n k) : Quality K :=
  let r := residuals prog p
  let x : Vec K n := p.x.map (· / p.τ)
  let z : Vec K k := p.z.map (· / p.τ)
  let s : Vec K k := p.s.map (· / p.τ)
  let value := objective prog p
  let dualValue := -(0.5 * x.dot (prog.cost.hess.mulVec x)) - prog.rhs.dot z
  let gap := magnitude (value - dualValue)
  { primal := r.primal.norm / p.τ / atLeast 1 (prog.rhs.norm + x.norm + s.norm)
    dual := r.dual.norm / p.τ / atLeast 1 (prog.cost.lin.norm + x.norm + z.norm)
    gap
    relativeGap := gap / atLeast 1 (atMost (magnitude value) (magnitude dualValue)) }

def Quality.within (w : Quality K) (gapTol feasTol : K) : Bool :=
  (w.gap < gapTol || w.relativeGap < gapTol) && w.primal < feasTol && w.dual < feasTol

/-- The multipliers show, up to `tol`, that no point satisfies the constraints. -/
def provesInfeasible (prog : SplitQp K n k) (tol : K) (p : Point K n k) : Bool :=
  let v := prog.rhs.dot p.z
  v < -tol && (prog.normals.transposeMulVec p.z).norm < -(tol * v)

/-- The point is, up to `tol`, a direction along which the objective falls for ever. -/
def provesUnbounded (prog : SplitQp K n k) (tol : K) (p : Point K n k) : Bool :=
  let v := prog.cost.lin.dot p.x
  v < -tol
    && (prog.cost.hess.mulVec p.x).norm < -(tol * v)
    && (prog.normals.mulVec p.x + p.s).norm < -(tol * v)

def verdict (prog : SplitQp K n k) (gapTol tol : K) (p : Point K n k) : Option QpStatus :=
  if p.κ ≤ p.τ then
    if (quality prog p).within gapTol tol then some .solved else none
  else if provesInfeasible prog tol p then some .infeasible
  else if provesUnbounded prog tol p then some .unbounded
  else none

def answer (prog : SplitQp K n k) (p : Point K n k) (status : QpStatus) (iterations : Nat) :
    ConicAnswer K n k :=
  ⟨p.x.map (· / p.τ), p.z.map (· / p.τ), status, objective prog p, iterations⟩

def Point.allFinite (p : Point K n k) : Bool :=
  p.x.allFinite && p.z.allFinite && p.s.allFinite && isFinite p.τ && isFinite p.κ

def Quality.error (w : Quality K) : K := w.primal + w.dual + w.relativeGap

/-- Where the method stands: the current point, the best one so far, and the number of steps since
that was found. -/
structure State (K : Type) (n k : Nat) where
  current : Point K n k
  best : Point K n k
  idle : Nat

def State.advance (prog : SplitQp K n k) (st : State K n k) (p : Point K n k) : State K n k :=
  if (quality prog p).error < (quality prog st.best).error then ⟨p, p, 0⟩
  else ⟨p, st.best, st.idle + 1⟩

/-- The answer when no more progress is made: the best point if it is a solution to relaxed
tolerances, and else what the current point shows. -/
def State.giveUp (prog : SplitQp K n k) (st : State K n k) (iterations : Nat) : ConicAnswer K n k :=
  match verdict prog 5e-5 1e-4 st.best with
  | some .solved => answer prog st.best .solved iterations
  | _ =>
    answer prog st.current ((verdict prog 5e-5 1e-4 st.current).getD .numericalError) iterations

/-- Steps until there is a verdict, at most `left` of them. Short steps, and many without an
improvement, end the search. -/
def loop (prog : SplitQp K n k) (gapTol tol : K) : Nat → Nat → State K n k → ConicAnswer K n k
  | left, done, st =>
    match verdict prog gapTol tol st.current with
    | some status => answer prog st.current status done
    | none =>
      match left with
      | 0 => answer prog st.current .maxIterations done
      | left + 1 =>
        match step prog st.current with
        | none => st.giveUp prog done
        | some (p, a) =>
          if a < 1e-4 || !p.allFinite || 30 ≤ st.idle then st.giveUp prog done
          else loop prog gapTol tol left (done + 1) (st.advance prog p)

def solve (settings : QpSettings K) (prog : SplitQp K n k) : ConicAnswer K n k :=
  match start prog with
  | some p => loop prog settings.tolerance 1e-8 settings.maxIterations 0 ⟨p, p, 0⟩
  | none => ⟨Vec.zero n, Vec.zero k, .numericalError, 0, 0⟩

end InteriorPoint

end ComplementarityQP
