import ComplementarityQP.Qp

/-! Two-sided rows as planes and half-spaces. -/
namespace ComplementarityQP

variable {K : Type} {n m : Nat}

/-- `min ½ xᵀ P x + qᵀ x` subject to `a x = b` for the first constraints and `a x ≤ b` for the
rest. -/
structure SplitQp (K : Type) (n k : Nat) where
  cost : Quadratic K n
  normals : Mat K k n
  rhs : Vec K k
  equalities : Nat

inductive RowSide where
  | equality | lower | upper
deriving Repr, DecidableEq

namespace Rows

/-- The half-space `a x ≤ b`, or the plane `a x = b`, of one side of row `i`. -/
def face [Neg K] [Zero K] (r : Rows K m n) (i : Fin m) : RowSide → Vec K n × K
  | .equality => (r.coeff.row i, (r.lower.get i).value?.getD 0)
  | .lower => ((r.coeff.row i).map (- ·), -((r.lower.get i).value?.getD 0))
  | .upper => (r.coeff.row i, (r.upper.get i).value?.getD 0)

/-- Bounds closer than this make an equality. -/
def equalityTol [OfScientific K] : K := 1e-12

/-- Equality rows, and the finite sides of the other rows. -/
structure Split (m : Nat) where
  equalities : List (Fin m)
  sides : List (Fin m × RowSide)

def Split.faces (sp : Split m) : List (Fin m × RowSide) :=
  sp.equalities.map (fun i => (i, .equality)) ++ sp.sides

section Split

variable [Zero K] [Neg K] [Sub K] [LT K] [LE K] [DecidableLT K] [DecidableLE K] [BEq K]
  [OfScientific K]

/-- Adds row `i`. A row of zeros is left out; it fails if its bounds exclude zero. -/
def splitRow (r : Rows K m n) (sp : Split m) (i : Fin m) : Option (Split m) :=
  let l := r.lower.get i
  let u := r.upper.get i
  if (r.coeff.row i).all (· == 0) then
    if (Bound.at equalityTol).below l || u.below (.at (-equalityTol)) then none else some sp
  else if r.isEquality equalityTol i then some { sp with equalities := sp.equalities ++ [i] }
  else some { sp with sides := sp.sides
    ++ (if l.isFinite then [(i, .lower)] else [])
    ++ (if u.isFinite then [(i, .upper)] else []) }

/-- All rows as planes and half-spaces; `none` if a row of zeros cannot hold. -/
def split (r : Rows K m n) : Option (Split m) := (List.finRange m).foldlM r.splitRow ⟨[], []⟩

end Split

end Rows

def Qp.splitBy [Zero K] [Neg K] (qp : Qp K n m) (sp : Rows.Split m) :
    SplitQp K n sp.faces.length where
  cost := qp.cost
  normals := Mat.ofFn fun k j => (qp.rows.face (sp.faces.get k).1 (sp.faces.get k).2).1.get j
  rhs := Vector.ofFn fun k => (qp.rows.face (sp.faces.get k).1 (sp.faces.get k).2).2
  equalities := sp.equalities.length

end ComplementarityQP
