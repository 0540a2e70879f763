import ComplementarityQP.Linear.Cholesky
import ComplementarityQP.Linear.Rotation
import ComplementarityQP.Options
import ComplementarityQP.Problem
import ComplementarityQP.Qp

/-! The convex programs that a run solves. The penalty is linearized at the current point `x`, so
the Hessian is that of the problem, with a diagonal shift `δ` where the solver needs one:

min `½ wᵀ (Q + δ I) w + (g + ρ (C x + c) - δ x)ᵀ w` under the rows of the problem.

The shift changes neither the fixed points of the iteration nor its descent directions. -/
namespace ComplementarityQP

variable {K : Type}

structure Subproblem (p : Problem K) where
  shift : K

namespace Subproblem

/-- The first acceptable value among `δ`, `δ * growth`, …; else the first value that was not
tried. -/
def search [Mul K] (acceptable : K → Bool) (growth : K) : Nat → K → Except K K
  | 0, δ => .error δ
  | attempts + 1, δ =>
    if acceptable δ then .ok δ else search acceptable growth attempts (δ * growth)

section Build

variable [Zero K] [One K] [Add K] [Sub K] [Neg K] [Mul K] [Div K] [LT K] [LE K] [DecidableLT K]
  [DecidableLE K] [OfScientific K]

def scale (p : Problem K) : K := atLeast 1 p.cost.hess.diagonalNorm

/-- Subproblems with the smallest shift tried that makes the Hessian acceptable. -/
def find (p : Problem K) (o : Options K) (acceptable : Mat K p.vars p.vars → Bool) :
    Except (Fault K) (Subproblem p) :=
  let Q := p.cost.hess
  if acceptable Q then .ok ⟨0⟩
  else
    let first := o.shiftInitial * scale p
    match search (fun δ => acceptable (Q.addDiagonal δ)) o.shiftGrowth o.shiftAttempts first with
    | .ok δ => .ok ⟨δ⟩
    | .error δ => .error (.regularization o.shiftAttempts (δ / o.shiftGrowth))

def acceptable [Root K] (p : Problem K) (needsDefinite : Bool) (H : Mat K p.vars p.vars) : Bool :=
  if needsDefinite then H.isPositiveDefinite else H.isPositiveSemidefinite (1e-12 * scale p)

def build [Root K] (p : Problem K) (needsDefinite : Bool) (o : Options K) :
    Except (Fault K) (Subproblem p) :=
  find p o (acceptable p needsDefinite)

end Build

section Program

variable {p : Problem K} [Zero K] [One K] [Add K] [Neg K] [Mul K] [LT K] [DecidableLT K]
  [OfScientific K]

def hess (s : Subproblem p) : Mat K p.vars p.vars := p.cost.hess.addDiagonal s.shift

def recentre (s : Subproblem p) (c x : Vec K p.vars) : Vec K p.vars :=
  if 0 < s.shift then c.shift (-s.shift) x else c

def gradient (s : Subproblem p) (x : Vec K p.vars) (ρ : K) : Vec K p.vars :=
  s.recentre (p.lin.shift ρ (p.coupling.gradient x)) x

def program (s : Subproblem p) (c : Vec K p.vars) : Qp K p.vars p.duals := ⟨⟨s.hess, c⟩, p.stacked⟩

def penalized (s : Subproblem p) (x : Vec K p.vars) (ρ : K) : Qp K p.vars p.duals :=
  s.program (s.gradient x ρ)

def unpenalized (s : Subproblem p) (x : Vec K p.vars) : Qp K p.vars p.duals :=
  s.program (s.recentre p.lin x)

end Program

section Ray

variable {p : Problem K} [Zero K] [One K] [Add K] [Sub K] [Neg K] [Mul K] [Div K] [LT K] [LE K]
  [DecidableLT K] [DecidableLE K] [OfScientific K] [Special K]

def rayTol : K := 1e-9

def unstopped (p : Problem K) (d : Vec K p.vars) : Bool :=
  let rows := p.stacked
  let v := rows.coeff.mulVec d
  (List.finRange p.duals).all fun i =>
    let tol := rayTol * atLeast 1 (rows.coeff.row i).norm
    (!(rows.lower.get i).isFinite || decide (-tol ≤ v.get i))
      && (!(rows.upper.get i).isFinite || decide (v.get i ≤ tol))

/-- Is `step`, from `x` to the solution of the subproblem `qp` at `x`, a direction along which the
unshifted subproblem falls for ever? The shift would turn that into an endless drift. Without a
shift the question does not arise. -/
def isRay [BEq K] (s : Subproblem p) (qp : Qp K p.vars p.duals) (x step : Vec K p.vars) : Bool :=
  let size := step.norm
  if s.shift == 0 || size ≤ 0 || !isFinite size then false
  else
    let d : Vec K p.vars := step.map (· / size)
    let Qd := (s.hess.mulVec d).shift (-s.shift) d
    let c := qp.cost.lin.shift s.shift x
    if rayTol * atLeast 1 s.hess.diagonalNorm < Qd.norm then false
    else if -(rayTol * atLeast 1 c.norm) ≤ c.dot d then false
    else unstopped p d

end Ray

end Subproblem

end ComplementarityQP
