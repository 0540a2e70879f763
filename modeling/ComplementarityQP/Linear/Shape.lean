import ComplementarityQP.Columns
import ComplementarityQP.Linear.Cholesky
import ComplementarityQP.Linear.Rotation

/-! Operations on matrices whose shape is known only when the program runs. Most are defined for
square matrices alone. -/
namespace ComplementarityQP

variable {K : Type}

namespace AnyMat

def square (A : AnyMat K) : Except (Fault K) (Mat K A.rows A.rows) :=
  match A.ofShape? A.rows A.rows with
  | some A => .ok A
  | none => .error .undefinedShape

def symmetrize [Add K] [Mul K] [OfScientific K] (A : AnyMat K) : Except (Fault K) (AnyMat K) := do
  pure ⟨_, _, (← A.square).symmetrize⟩

def diagonalNorm [Zero K] [Neg K] [LT K] [DecidableLT K] (A : AnyMat K) : Except (Fault K) K := do
  pure (← A.square).diagonalNorm

variable [Zero K] [Sub K] [Mul K] [Div K] [LT K] [DecidableLT K] [Root K]

def isPositiveDefinite (A : AnyMat K) : Except (Fault K) Bool := do
  pure (← A.square).isPositiveDefinite

variable [One K] [Add K] [Neg K] [OfScientific K]

/-- The least eigenvalue; `none` for a matrix without rows, whatever its width. -/
def minEigenvalue (A : AnyMat K) : Except (Fault K) (Option K) :=
  if A.rows = 0 then .ok none else do pure (← A.square).minEigenvalue

def isPositiveSemidefinite [LE K] [DecidableLE K] (A : AnyMat K) (tol : K) :
    Except (Fault K) Bool :=
  if A.rows = 0 then .ok true else do pure ((← A.square).isPositiveSemidefinite tol)

end AnyMat

end ComplementarityQP
