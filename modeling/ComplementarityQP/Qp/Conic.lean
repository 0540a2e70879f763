import ComplementarityQP.Columns
import ComplementarityQP.Qp.Split

/-! Quadratic programs in the form `A x + s = b` with `s` zero on the first rows and non-negative on
the rest, and the way back to the rows that they came from. -/
namespace ComplementarityQP

variable {K : Type} {n m : Nat}

def RowSide.sign [One K] [Neg K] : RowSide → K
  | .lower => -1
  | _ => 1

namespace Rows

/-- The constraints of a program in conic form: its equalities, then every finite side of its other
rows, in order. -/
def conicSides [Zero K] [Neg K] [Sub K] [LT K] [LE K] [DecidableLT K] [DecidableLE K]
    [OfScientific K] (r : Rows K m n) : List (Fin m × RowSide) :=
  ((List.finRange m).filter (r.isEquality equalityTol ·)).map (fun i => (i, RowSide.equality)) ++
    ((List.finRange m).filter (!r.isEquality equalityTol ·)).flatMap fun i =>
      (if (r.lower.get i).isFinite then [(i, RowSide.lower)] else []) ++
        (if (r.upper.get i).isFinite then [(i, RowSide.upper)] else [])

def conicEqualities [Zero K] [Neg K] [Sub K] [LT K] [LE K] [DecidableLT K] [DecidableLE K]
    [OfScientific K] (r : Rows K m n) : Nat :=
  ((List.finRange m).filter (r.isEquality equalityTol ·)).length

def sideBound [Zero K] (r : Rows K m n) (i : Fin m) : RowSide → K
  | .upper => (r.upper.get i).value?.getD 0
  | _ => (r.lower.get i).value?.getD 0

end Rows

namespace Mat

variable [Zero K] [Neg K] [LT K] [DecidableLT K] [OfScientific K]

/-- Entries that would not be stored in compressed columns become zero. -/
def dropSmall (A : Mat K m n) : Mat K m n :=
  ofFn fun i j => if sparsityTol < magnitude (A i j) then A i j else 0

def mirrorUpper (A : Mat K n n) : Mat K n n := ofFn fun i j => if i ≤ j then A i j else A j i

end Mat

namespace Qp

section Form

variable [Zero K] [One K] [Neg K] [Sub K] [Mul K] [LT K] [LE K] [DecidableLT K] [DecidableLE K]
  [OfScientific K]

def conic (qp : Qp K n m) : SplitQp K n qp.rows.conicSides.length where
  cost := qp.cost
  normals := Mat.ofFn fun k j =>
    let (i, side) := qp.rows.conicSides.get k
    side.sign * qp.rows.coeff i j
  rhs := Vector.ofFn fun k =>
    let (i, side) := qp.rows.conicSides.get k
    side.sign * qp.rows.sideBound i side
  equalities := qp.rows.conicEqualities

end Form

/-- One multiplier for each row from those of the constraints: a lower side counts positive, an
upper side and an equality negative. -/
def foldConic [Zero K] [Add K] [Sub K] (sides : List ((Fin m × RowSide) × K)) (i : Fin m) : K :=
  sides.foldl (fun s ((j, side), v) =>
    if j = i then
      match side with
      | .lower => s + v
      | _ => s - v
    else s) 0

end Qp

namespace Rows

section Snap

variable [Zero K] [Add K] [Sub K] [Neg K] [Mul K] [Div K] [LT K] [LE K] [DecidableLT K]
  [DecidableLE K] [OfScientific K] [Special K]

/-- The variables with a coefficient in row `i` that is not negligible. -/
def support (r : Rows K m n) (i : Fin m) : List (Fin n) :=
  (List.finRange n).filter fun j => decide (sparsityTol < magnitude (r.coeff i j))

def quotient (b : Bound K) (c : K) : Option K :=
  match b with
  | .at v => if isFinite (v / c) then some (v / c) else none
  | _ => none

def snapRow (r : Rows K m n) (x : Vec K n) (i : Fin m) : Vec K n :=
  match r.support i with
  | [j] =>
    let c := r.coeff i j
    let (low, high) :=
      if 0 < c then (r.lower.get i, r.upper.get i) else (r.upper.get i, r.lower.get i)
    let v := match quotient low c with
      | some l => atLeast (x.get j) l
      | none => x.get j
    let v := match quotient high c with
      | some h => atMost v h
      | none => v
    x.put j v
  | _ => x

/-- Moves `x` onto the rows with a single variable, unless the other rows come to be violated
more. -/
def snap (r : Rows K m n) (x : Vec K n) : Vec K n :=
  let snapped := (List.finRange m).foldl r.snapRow x
  if r.violation snapped ≤ r.violation x then snapped else x

end Snap

end Rows

end ComplementarityQP
