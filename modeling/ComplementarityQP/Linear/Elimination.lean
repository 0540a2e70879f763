import ComplementarityQP.Mat

/-! Square linear systems by elimination, with the largest entry of each column as pivot. -/
namespace ComplementarityQP

variable {K : Type} {n p : Nat} [Zero K] [Add K] [Sub K] [Neg K] [Mul K] [Div K] [LT K]
  [DecidableLT K]

namespace Mat

def pivotRow (A : Mat K (n + 1) (n + 1)) : Fin (n + 1) :=
  Fin.foldl (n + 1) (fun r i => if magnitude (A r 0) < magnitude (A i 0) then i else r) 0

/-- Row `i + 1` after the first row and row `r` have changed places. -/
def otherRow (r : Fin (n + 1)) (i : Fin n) : Fin (n + 1) := if i.succ = r then 0 else i.succ

/-- The solution of `A X = B`, column by column; `none` if a pivot is zero. -/
def eliminate? : {n : Nat} → Mat K n n → Mat K n p → Option (Mat K n p)
  | 0, _, B => some B
  | n + 1, A, B =>
    let r := pivotRow A
    let d := A r 0
    if d < 0 || 0 < d then
      let factor : Vec K n := Vector.ofFn fun i => A (otherRow r i) 0 / d
      let A' : Mat K n n := ofFn fun i j => A (otherRow r i) j.succ - factor.get i * A r j.succ
      let B' : Mat K n p := ofFn fun i j => B (otherRow r i) j - factor.get i * B r j
      match eliminate? A' B' with
      | none => none
      | some X =>
        let first : Vec K p := Vector.ofFn fun j => (B r j - sum n fun i => A r i.succ * X i j) / d
        some (ofFn fun i j => Fin.cases (first.get j) (fun i => X i j) i)
    else none

def solve? (A : Mat K n n) (b : Vec K n) : Option (Vec K n) :=
  (A.eliminate? (ofFn fun i (_ : Fin 1) => b.get i)).map fun X => Vector.ofFn fun i => X i 0

def inverse? [One K] (A : Mat K n n) : Option (Mat K n n) :=
  A.eliminate? (ofFn fun i j => if i = j then 1 else 0)

end Mat

end ComplementarityQP
