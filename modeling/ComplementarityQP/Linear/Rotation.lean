import ComplementarityQP.Mat

/-! Plane rotations, and what repeated sweeps of them give: the eigenvalues of a symmetric matrix
and least squares solutions. -/
namespace ComplementarityQP

variable {K : Type} {m n : Nat} [Zero K] [One K] [Add K] [Sub K] [Neg K] [Mul K] [Div K]
  [LT K] [DecidableLT K] [OfScientific K] [Root K]

structure Rotation (K : Type) where
  c : K
  s : K

namespace Rotation

/-- The smaller rotation that makes `[[a, g], [g, b]]` diagonal, for `g` other than zero. -/
def diagonalizing (a b g : K) : Rotation K :=
  let ζ := (b - a) / (g + g)
  let t := (if ζ < 0 then -1 else 1) / (magnitude ζ + Root.sqrt (1 + ζ * ζ))
  let c := 1 / Root.sqrt (1 + t * t)
  ⟨c, c * t⟩

def columns (r : Rotation K) (p q : Fin n) (A : Mat K m n) : Mat K m n :=
  Mat.ofFn fun i j =>
    if j = p then r.c * A i p - r.s * A i q
    else if j = q then r.s * A i p + r.c * A i q
    else A i j

end Rotation

def indexPairs (n : Nat) : List (Fin n × Fin n) :=
  (List.finRange n).flatMap fun p => ((List.finRange n).filter (p < ·)).map fun q => (p, q)

/-- Enough sweeps for any matrix at hand: convergence is quadratic. -/
def sweeps : Nat := 30

namespace Mat

def mirrorLower (A : Mat K n n) : Mat K n n := ofFn fun i j => if i < j then A j i else A i j

def eigenStep (A : Mat K n n) (pq : Fin n × Fin n) : Mat K n n :=
  let g := A pq.1 pq.2
  if g < 0 || 0 < g then
    let r := Rotation.diagonalizing (A pq.1 pq.1) (A pq.2 pq.2) g
    (r.columns pq.1 pq.2 (r.columns pq.1 pq.2 A).transpose).transpose
  else A

/-- The eigenvalues of the symmetric matrix with the lower triangle of `A`. -/
def eigenvalues (A : Mat K n n) : Vec K n :=
  diagonal <| (List.range sweeps).foldl (fun B _ => (indexPairs n).foldl eigenStep B) A.mirrorLower

def minEigenvalue (A : Mat K n n) : Option K :=
  A.eigenvalues.toList.foldl (fun w v => some (w.elim v (atMost · v))) none

/-- Positive semidefinite up to `tol` on the least eigenvalue. -/
def isPositiveSemidefinite [LE K] [DecidableLE K] (A : Mat K n n) (tol : K) : Bool :=
  match A.minEigenvalue with
  | none => true
  | some v => -tol ≤ v

def orthogonalStep (wv : Mat K m n × Mat K n n) (pq : Fin n × Fin n) : Mat K m n × Mat K n n :=
  let (W, V) := wv
  let (p, q) := pq
  let g := sum m fun i => W i p * W i q
  if g < 0 || 0 < g then
    let r := Rotation.diagonalizing (sum m fun i => W i p * W i p) (sum m fun i => W i q * W i q) g
    (r.columns p q W, r.columns p q V)
  else wv

/-- The shortest `x` that minimises the length of `A x - b`. Directions that `A` shrinks to `tol` or
less are left out. -/
def leastSquares (A : Mat K m n) (tol : K) (b : Vec K m) : Vec K n :=
  let id : Mat K n n := ofFn fun i j => if i = j then 1 else 0
  let (W, V) :=
    (List.range sweeps).foldl (fun wv _ => (indexPairs n).foldl orthogonalStep wv) (A, id)
  let weight : Vec K n := Vector.ofFn fun j =>
    let square := sum m fun i => W i j * W i j
    if tol < Root.sqrt square then (sum m fun i => W i j * b.get i) / square else 0
  V.mulVec weight

end Mat

end ComplementarityQP
