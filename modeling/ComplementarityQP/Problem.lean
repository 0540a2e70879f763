import ComplementarityQP.Fault

/-! Quadratic programs with complementarity pairs:

minimise `½ xᵀ Q x + gᵀ x` subject to `lbA ≤ A x ≤ ubA`, `lbL ≤ L x ≤ ubL`, `lbR ≤ R x ≤ ubR` and
`(L x - lbL)ᵢ (R x - lbR)ᵢ = 0` for every pair `i`. -/
namespace ComplementarityQP

variable {K : Type}

/-- One side of the complementarity pairs. Its lower bounds are finite. -/
structure Side (K : Type) (p n : Nat) where
  coeff : Mat K p n
  lower : Vec K p
  upper : Vec (Bound K) p

namespace Side

variable {p n : Nat}

def rows (s : Side K p n) : Rows K p n := ⟨s.coeff, s.lower.map .at, s.upper⟩

def gap [Zero K] [Add K] [Sub K] [Mul K] (s : Side K p n) (x : Vec K n) : Vec K p :=
  s.coeff.mulVec x - s.lower

end Side

structure Problem (K : Type) where
  vars : Nat
  /-- General rows, those made from box bounds included. -/
  rows : Nat
  pairs : Nat
  /-- The quadratic part as given; only its symmetric part matters. -/
  quad : Mat K vars vars
  lin : Vec K vars
  general : Rows K rows vars
  left : Side K pairs vars
  right : Side K pairs vars
  x0 : Option (Vec K vars)
  y0 : Option (Vec K (rows + pairs + pairs))

namespace Problem

/-- One multiplier for each general row and each side of a pair. -/
def duals (p : Problem K) : Nat := p.rows + p.pairs + p.pairs

def stacked (p : Problem K) : Rows K p.duals p.vars :=
  (p.general.stack p.left.rows).stack p.right.rows

section Parts

variable {n r q : Nat}

def generalPart (y : Vec K (r + q + q)) (i : Fin r) : K := y.get ((i.castAdd q).castAdd q)

def leftPart (y : Vec K (r + q + q)) (i : Fin q) : K := y.get ((i.natAdd r).castAdd q)

def rightPart (y : Vec K (r + q + q)) (i : Fin q) : K := y.get (i.natAdd (r + q))

end Parts

variable [Zero K] [Add K] [Mul K]

def cost [OfScientific K] (p : Problem K) : Quadratic K p.vars := ⟨p.quad.symmetrize, p.lin⟩

/-- The penalty `(L x - lbL)ᵀ (R x - lbR)` up to its constant term. -/
def coupling [Neg K] (p : Problem K) : Quadratic K p.vars where
  hess := (p.left.coeff.transpose.mul p.right.coeff).add (p.right.coeff.transpose.mul p.left.coeff)
  lin := -(p.right.coeff.transposeMulVec p.left.lower + p.left.coeff.transposeMulVec p.right.lower)

def couplingConstant (p : Problem K) : K := p.left.lower.dot p.right.lower

def objective [OfScientific K] (p : Problem K) (x : Vec K p.vars) : K := p.cost.value x

def penalty [Neg K] [OfScientific K] (p : Problem K) (x : Vec K p.vars) : K :=
  p.coupling.value x + p.couplingConstant

/-- The objective plus `ρ` times the penalty, without the constant term. -/
def merit [Neg K] [OfScientific K] (p : Problem K) (ρ : K) (x : Vec K p.vars) : K :=
  p.objective x + ρ * p.coupling.value x

variable [Sub K] [LT K] [DecidableLT K]

/-- The sum of `|(L x - lbL)ᵢ (R x - lbR)ᵢ|`. -/
def complementarity [Neg K] (p : Problem K) (x : Vec K p.vars) : K :=
  let l := p.left.gap x
  let r := p.right.gap x
  sum p.pairs fun i => magnitude (l.get i * r.get i)

def violation (p : Problem K) (x : Vec K p.vars) : K := p.stacked.violation x

end Problem

namespace Problem

def checkStart [Special K] (name : String) (n : Nat) :
    Option (Array K) → Except (Fault K) (Option (Vec K n))
  | none => .ok none
  | some xs =>
    match Vec.ofArray? n xs with
    | none => .error (.length name xs.size n)
    | some x => if x.allFinite then .ok (some x) else .error (.nonFinite name)

def withStart [Special K] (p : Problem K) (x0 y0 : Option (Array K)) :
    Except (Fault K) (Problem K) := do
  let x0 ← checkStart "x0" p.vars x0
  let y0 ← checkStart "y0" p.duals y0
  pure { p with x0, y0 }

end Problem

end ComplementarityQP
