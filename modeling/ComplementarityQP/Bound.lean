import ComplementarityQP.Mat

/-! Bounds, possibly absent, and systems of two-sided rows `lower ≤ A x ≤ upper`. -/
namespace ComplementarityQP

inductive Bound (K : Type) where
  | negInf
  | at (v : K)
  | posInf
deriving Repr

variable {K : Type} {m n p : Nat}

namespace Bound

def value? : Bound K → Option K
  | .at v => some v
  | _ => none

def isFinite (b : Bound K) : Bool := b.value?.isSome

def isNaN [Special K] : Bound K → Bool
  | .at v => Special.isNaN v
  | _ => false

/-- `b < c` in the extended line. -/
def below [LT K] [DecidableLT K] : Bound K → Bound K → Bool
  | .negInf, .negInf => false
  | .negInf, _ => true
  | .at v, .at w => v < w
  | .at _, .posInf => true
  | _, _ => false

/-- Only finite ends count. -/
def Keeps [LE K] (lower upper : Bound K) (v : K) : Prop :=
  (∀ l, lower = .at l → l ≤ v) ∧ ∀ u, upper = .at u → v ≤ u

instance [LE K] [DecidableLE K] (lower upper : Bound K) (v : K) : Decidable (lower.Keeps upper v) :=
  decidable_of_iff ((∀ l ∈ lower.value?, l ≤ v) ∧ ∀ u ∈ upper.value?, v ≤ u) <| by
    cases lower <;> cases upper <;> simp [Keeps, value?]

/-- Is `x` further than `tol` from the bound? From an absent one it always is, unless `x` is that
infinity itself. -/
def far [Zero K] [Neg K] [Sub K] [LT K] [DecidableLT K] [Special K] (b : Bound K)
    (x tol : K) : Bool :=
  match b with
  | .at v => tol < magnitude (x - v)
  | .negInf => (Special.isFinite x || 0 < x) && Special.isFinite tol
  | .posInf => (Special.isFinite x || x < 0) && Special.isFinite tol

end Bound

/-- The rows `lower ≤ A x ≤ upper`. An infinite bound is an absent one. -/
structure Rows (K : Type) (m n : Nat) where
  coeff : Mat K m n
  lower : Vec (Bound K) m
  upper : Vec (Bound K) m

namespace Rows

def stack (r : Rows K m n) (s : Rows K p n) : Rows K (m + p) n where
  coeff := r.coeff.stack s.coeff
  lower := r.lower.join s.lower
  upper := r.upper.join s.upper

/-- How far `v` lies outside of its finite bounds, and `w` if that is more. -/
def excess [Sub K] [LT K] [DecidableLT K] (lower upper : Bound K) (v w : K) : K :=
  let w := match lower with
    | .at l => atLeast w (l - v)
    | _ => w
  match upper with
  | .at u => atLeast w (v - u)
  | _ => w

/-- The largest violation of a finite bound at `x`, 0 when there is none. -/
def violation [Zero K] [Add K] [Sub K] [Mul K] [LT K] [DecidableLT K] (r : Rows K m n)
    (x : Vec K n) : K :=
  let v := r.coeff.mulVec x
  Fin.foldl m (fun w i => excess (r.lower.get i) (r.upper.get i) (v.get i) w) 0

def Holds [Zero K] [Add K] [Mul K] [LE K] (r : Rows K m n) (x : Vec K n) : Prop :=
  ∀ i : Fin m, (r.lower.get i).Keeps (r.upper.get i) ((r.coeff.mulVec x).get i)

instance [Zero K] [Add K] [Mul K] [LE K] [DecidableLE K] (r : Rows K m n) (x : Vec K n) :
    Decidable (r.Holds x) :=
  inferInstanceAs (Decidable (∀ _, _))

def isEquality [Zero K] [Neg K] [Sub K] [LT K] [LE K] [DecidableLT K] [DecidableLE K]
    (r : Rows K m n) (tol : K) (i : Fin m) : Bool :=
  match r.lower.get i, r.upper.get i with
  | .at l, .at u => magnitude (u - l) ≤ tol
  | _, _ => false

end Rows

/-- `½ xᵀ H x + cᵀ x`. -/
structure Quadratic (K : Type) (n : Nat) where
  hess : Mat K n n
  lin : Vec K n

namespace Quadratic

variable [Zero K] [Add K] [Mul K]

def value [OfScientific K] (q : Quadratic K n) (x : Vec K n) : K :=
  0.5 * x.dot (q.hess.mulVec x) + q.lin.dot x

/-- `H x + c`, the gradient for symmetric `H`. -/
def gradient (q : Quadratic K n) (x : Vec K n) : Vec K n :=
  q.hess.mulVec x + q.lin

end Quadratic

end ComplementarityQP
