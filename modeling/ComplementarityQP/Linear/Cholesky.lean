import ComplementarityQP.Mat

/-! Cholesky factors. Only the lower triangle is read. -/
namespace ComplementarityQP

variable {K : Type} {n : Nat} [Zero K] [Sub K] [Mul K] [Div K] [LT K] [DecidableLT K] [Root K]

namespace Mat

/-- Column `j` of `A` less what the first `j` columns of the factor account for. -/
def remainder (A L : Mat K n n) (j i : Fin n) : K :=
  Fin.foldl j (fun s k => s - L j ⟨k, by omega⟩ * L i ⟨k, by omega⟩) (A i j)

/-- Adds column `j` to the factor; fails unless its pivot is positive. -/
def choleskyStep (A L : Mat K n n) (j : Fin n) : Option (Mat K n n) :=
  let pivot := A.remainder L j j
  if 0 < pivot then
    let d := Root.sqrt pivot
    let col : Vec K n := Vector.ofFn fun i =>
      if i = j then d else if i < j then 0 else A.remainder L j i / d
    some (ofFn fun i k => if k = j then col.get i else L i k)
  else none

/-- The lower triangular `L` with `L Lᵀ = A`. -/
def cholesky? (A : Mat K n n) : Option (Mat K n n) :=
  (List.finRange n).foldlM (choleskyStep A) (zero n n)

def isPositiveDefinite (A : Mat K n n) : Bool := A.cholesky?.isSome

end Mat

end ComplementarityQP
