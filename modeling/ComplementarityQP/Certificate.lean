import ComplementarityQP.Options
import ComplementarityQP.Problem
import ComplementarityQP.Status

/-! Residuals, multipliers and certificates. A vector of multipliers holds those of the general
rows, of the left and of the right sides, with the sign of `Q x + g - Aᵀ yA - Lᵀ yL - Rᵀ yR = 0`. -/
namespace ComplementarityQP.Problem

variable {K : Type} [Zero K] [Add K] [Sub K] [Mul K] [OfScientific K]

/-- `Q x + g - [A; L; R]ᵀ y`. -/
def residual (p : Problem K) (x : Vec K p.vars) (y : Vec K p.duals) : Vec K p.vars :=
  p.cost.gradient x - p.stacked.coeff.transposeMulVec y

/-- The gradient of the Lagrangian of the penalty problem at `ρ`. -/
def penaltyResidual [Neg K] (p : Problem K) (ρ : K) (x : Vec K p.vars) (y : Vec K p.duals) :
    Vec K p.vars :=
  (p.residual x y).shift ρ (p.coupling.gradient x)

/-- Multipliers of the penalty problem as multipliers of the problem itself: the left ones lose
`ρ (R x - lbR)`, the right ones `ρ (L x - lbL)`. -/
def transformDuals (p : Problem K) (ρ : K) (x : Vec K p.vars) (y : Vec K p.duals) : Vec K p.duals :=
  let l := p.left.gap x
  let r := p.right.gap x
  Vec.join (Vec.join (Vector.ofFn (generalPart y))
    (Vector.ofFn fun i => leftPart y i - ρ * r.get i))
    (Vector.ofFn fun i => rightPart y i - ρ * l.get i)

section Classify

variable [LT K] [LE K] [DecidableLT K] [DecidableLE K]

def biactive (p : Problem K) (tol : K) (x : Vec K p.vars) : List (Fin p.pairs) :=
  let l := p.left.gap x
  let r := p.right.gap x
  (List.finRange p.pairs).filter fun i => decide (l.get i ≤ tol) && decide (r.get i ≤ tol)

variable [Neg K] [Special K]

/-- What the pairs seen so far allow beyond the weak class. -/
structure Allowed where
  strong : Bool
  mordukhovich : Bool
deriving DecidableEq

/-- What is still allowed after the multipliers `(yl, yr)` of one more pair; `none` if only the weak
class is. -/
def Allowed.after (tol : K) (a : Allowed) (yl yr : K) : Option Allowed :=
  let product := yl * yr
  let smallest := lesser yl yr
  let strong := a.strong && !decide (smallest < 0)
  if tol ≤ magnitude product && decide (smallest ≤ 0) then
    if product ≤ tol then none else some ⟨strong, false⟩
  else some ⟨strong, a.mordukhovich⟩

def Allowed.best : Option Allowed → Stationarity
  | none => .weak
  | some a => if a.strong then .strong else if a.mordukhovich then .mordukhovich else .clarke

/-- The class of a complementary point, by the multipliers of its biactive pairs. -/
def classify (p : Problem K) (tol : K) (x : Vec K p.vars) (y : Vec K p.duals) : Stationarity :=
  Allowed.best ((p.biactive tol x).foldlM
    (fun a i => a.after tol (leftPart y i) (rightPart y i)) ⟨true, true⟩)

end Classify

section Certified

variable [One K] [Neg K] [LT K] [LE K] [DecidableLT K] [DecidableLE K] [Special K]

/-- A multiplier of a general row points to a bound that the row is at. -/
def rowCertified (lower upper : Bound K) (v y statTol feasTol : K) : Bool :=
  !(statTol < y && lower.far v feasTol) && !(y < -statTol && upper.far v feasTol)

/-- A side strictly inside of its bounds carries no multiplier, and one at its upper bound alone no
positive one. -/
def sideCertified (lower : K) (upper : Bound K) (gap y statTol feasTol : K) : Bool :=
  let atLower := gap ≤ feasTol
  -- An absent upper bound is `+∞`, and `∞ - gap ≤ feasTol` is false wherever `gap ≤ feasTol` is.
  let atUpper := match upper with
    | .at u => decide (u - lower - gap ≤ feasTol)
    | _ => false
  atLower || (if atUpper then !decide (statTol < y) else !decide (statTol < magnitude y))

/-- Is `(x, y)` a solution within tolerance: feasible, complementary, stationary, with multipliers
of consistent signs? -/
def certified (p : Problem K) (o : Options K) (x : Vec K p.vars) (y : Vec K p.duals) : Bool :=
  let statTol := o.stationarityTol
  let feasTol := statTol * (1 + x.norm)
  let ax := p.general.coeff.mulVec x
  let l := p.left.gap x
  let r := p.right.gap x
  !decide (feasTol < p.violation x)
    && !decide (o.complementarityTol < p.complementarity x)
    && !decide (statTol < (p.residual x y).norm)
    && (List.finRange p.rows).all (fun i =>
      rowCertified (p.general.lower.get i) (p.general.upper.get i) (ax.get i)
        (generalPart y i) statTol feasTol)
    && (List.finRange p.pairs).all fun i =>
      sideCertified (p.left.lower.get i) (p.left.upper.get i) (l.get i)
        (leftPart y i) statTol feasTol
        && sideCertified (p.right.lower.get i) (p.right.upper.get i) (r.get i)
        (rightPart y i) statTol feasTol

/-- The same test for vectors of any length; those that do not fit are no solution. -/
def isCertified (p : Problem K) (o : Options K) (x y : Array K) : Bool :=
  match Vec.ofArray? p.vars x, Vec.ofArray? p.duals y with
  | some x, some y => p.certified o x y
  | _, _ => false

end Certified

end ComplementarityQP.Problem
