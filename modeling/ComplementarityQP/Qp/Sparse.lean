import ComplementarityQP.Qp.InteriorPoint

/-! The sparse solver: an interior point method on the program in conic form, of which negligible
coefficients are left out. Hints are ignored. -/
namespace ComplementarityQP

variable {K : Type} {n m : Nat}

abbrev ConicMethod (K : Type) := {n k : Nat} → SplitQp K n k → ConicAnswer K n k

namespace Qp

variable [Zero K] [One K] [Add K] [Sub K] [Neg K] [Mul K] [Div K] [LT K] [LE K] [DecidableLT K]
  [DecidableLE K] [OfScientific K] [Special K]

/-- The sparse solver. The point of a solved program is moved onto the bounds of single
variables. -/
def sparse (method : ConicMethod K) (qp : Qp K n m) : Except (Fault K) (Answer K n m) := do
  qp.validate
  let form := qp.conic
  let a := method { form with
    cost := ⟨form.cost.hess.mirrorUpper.dropSmall, form.cost.lin⟩, normals :=
      form.normals.dropSmall }
  pure {
    x := if a.status.isSolved then qp.rows.snap a.x else a.x
    y := Vector.ofFn (foldConic (qp.rows.conicSides.zip a.z.toList))
    status := a.status
    objective := a.objective
    iterations := a.iterations }

end Qp

end ComplementarityQP
