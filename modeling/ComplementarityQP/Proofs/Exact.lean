import ComplementarityQP.Backend
import ComplementarityQP.Problem
import Mathlib.Algebra.BigOperators.Fin
import Mathlib.Data.Rat.Sqrt
import Mathlib.LinearAlgebra.Matrix.Symmetric
import Mathlib.Tactic.Linarith

/-! Exact arithmetic: scalars of an ordered field, vectors as functions of their index, and matrices
as those of the linear algebra library. The rationals are an instance. -/
namespace ComplementarityQP
open Matrix

variable {K : Type} {m n p : Nat}

/-- Every scalar is a proper number. -/
class Exact (K : Type) [Special K] : Prop where
  isFinite (x : K) : isFinite x = true
  isNaN (x : K) : isNaN x = false

section Order
variable [Field K] [LinearOrder K] [IsStrictOrderedRing K]

theorem magnitude_eq_abs (x : K) : magnitude x = |x| := by
  unfold magnitude
  split
  · rw [abs_of_neg (by assumption)]
  · rw [abs_of_nonneg (by linarith)]

omit [Field K] [IsStrictOrderedRing K]

theorem atLeast_eq_max (low x : K) : atLeast low x = max low x := by
  unfold atLeast
  split
  · rw [max_eq_right (le_of_lt (by assumption))]
  · rw [max_eq_left (le_of_not_gt (by assumption))]

theorem atMost_eq_min (high x : K) : atMost high x = min x high := by
  unfold atMost
  split
  · rw [min_eq_left (le_of_lt (by assumption))]
  · rw [min_eq_right (le_of_not_gt (by assumption))]

theorem clamp_eq_max_min {low high : K} (h : low ≤ high) (x : K) :
    clamp low high x = max low (min x high) := by
  unfold clamp
  split
  · rename_i hx
    rw [min_eq_left (hx.le.trans h), max_eq_left hx.le]
  · rename_i hx
    have hlow := le_of_not_gt hx
    split
    · rename_i hh
      rw [min_eq_right hh.le, max_eq_right h]
    · rename_i hh
      rw [min_eq_left (le_of_not_gt hh), max_eq_right hlow]

end Order

theorem sum_eq_sum [AddCommMonoid K] (n : Nat) (f : Fin n → K) : sum n f = ∑ i, f i := by
  unfold sum
  induction n with
  | zero => simp
  | succ n ih => rw [Fin.foldl_succ_last, ih, Fin.sum_univ_castSucc]

namespace Vec

theorem get_eq_getElem (x : Vec K n) (i : Fin n) : x.get i = x[(i : Nat)] := rfl

@[simp] theorem get_ofFn (f : Fin n → K) (i : Fin n) : (Vector.ofFn f).get i = f i :=
  Vector.getElem_ofFn _

@[simp] theorem get_map {L : Type} (x : Vec K n) (f : K → L) (i : Fin n) :
    (x.map f).get i = f (x.get i) :=
  Vector.getElem_map _ _

theorem get_add [Add K] (x y : Vec K n) : (x + y).get = x.get + y.get := by
  funext i
  simp [Vec.get_eq_getElem]

theorem get_shift [Add K] [Mul K] (x y : Vec K n) (c : K) :
    (x.shift c y).get = x.get + c • y.get := by
  funext i
  simp [shift]

theorem dot_eq_dotProduct [NonUnitalNonAssocSemiring K] (x y : Vec K n) :
    x.dot y = x.get ⬝ᵥ y.get := by
  rw [dot, sum_eq_sum, dotProduct]

theorem dot_shift [CommSemiring K] (d x y : Vec K n) (c : K) :
    d.dot (x.shift c y) = d.dot x + c * d.dot y := by
  simp only [dot_eq_dotProduct, get_shift, dotProduct_add, dotProduct_smul, smul_eq_mul]

end Vec

namespace Mat

def toMatrix (A : Mat K m n) : Matrix (Fin m) (Fin n) K := Matrix.of A.get

@[simp] theorem toMatrix_apply (A : Mat K m n) (i : Fin m) (j : Fin n) :
    A.toMatrix i j = A.get i j := rfl

theorem get_mulVec [NonUnitalNonAssocSemiring K] (A : Mat K m n) (x : Vec K n) :
    (A.mulVec x).get = A.toMatrix *ᵥ x.get := by
  funext i
  simp [mulVec, sum_eq_sum, Matrix.mulVec, dotProduct]

theorem toMatrix_mul [NonUnitalNonAssocSemiring K] (A : Mat K m n) (B : Mat K n p) :
    (A.mul B).toMatrix = A.toMatrix * B.toMatrix := by
  ext i k
  simp [mul, sum_eq_sum, Matrix.mul_apply]

theorem toMatrix_transpose (A : Mat K m n) : A.transpose.toMatrix = A.toMatrixᵀ := by
  ext i j
  simp [transpose]

theorem toMatrix_add [Add K] (A B : Mat K m n) : (A.add B).toMatrix = A.toMatrix + B.toMatrix := by
  ext i j
  simp [add]

theorem toMatrix_addDiagonal [CommSemiring K] (A : Mat K n n) (c : K) :
    (A.addDiagonal c).toMatrix = A.toMatrix + c • (1 : Matrix (Fin n) (Fin n) K) := by
  ext i j
  by_cases hij : i = j <;> simp [addDiagonal, hij]

theorem addDiagonal_zero [Semiring K] (A : Mat K n n) : A.addDiagonal 0 = A := by
  ext i j
  simp [addDiagonal]

theorem isSymm_symmetrize [CommRing K] [OfScientific K] (A : Mat K n n) :
    A.symmetrize.toMatrix.IsSymm := by
  ext i j
  simp [symmetrize, add_comm]

end Mat

section Rational

instance : Special ℚ := ⟨fun _ => true, fun _ => false⟩

instance : Exact ℚ := ⟨fun _ => rfl, fun _ => rfl⟩

instance : Root ℚ := ⟨Rat.sqrt⟩

/-- Minimise `x² + y² - 2 x - 2 y` under `0 ≤ x ⟂ y ≥ 0`. -/
def Problem.warmUp : Problem ℚ where
  vars := 2
  rows := 0
  pairs := 1
  quad := Mat.ofFn fun i j => if i = j then 2 else 0
  lin := #v[-2, -2]
  general := ⟨Mat.zero 0 2, #v[], #v[]⟩
  left := ⟨Mat.ofFn fun _ j => if j = 0 then 1 else 0, #v[0], #v[.posInf]⟩
  right := ⟨Mat.ofFn fun _ j => if j = 1 then 1 else 0, #v[0], #v[.posInf]⟩
  x0 := none
  y0 := none

/-- The minimum without the pair. Neither side is at its bound there. -/
def Backend.Line.uncoupled : Backend.Line ℚ := ⟨#[1, 1], #[0, 0], .solved, 1⟩

/-- A solver that answers with the given lines, and a clock that stands still. -/
def Host.answering (lines : List (Option (Backend.Line ℚ))) : Host ℚ Nat where
  backend := .scripted true lines
  observe _ s := s
  cancelled s := (false, s)
  clock s := (0, s)

variable {l : Backend.Line ℚ}

theorem Host.answering_solve (qp : Qp ℚ n m) (hint : Option (Hint ℚ)) (s : Nat) :
    ((Host.answering [some l]).backend.solve qp hint s).1 = l.answer n m := by
  simp [answering, Backend.scripted]

theorem Backend.Line.answer_ok {a : Answer ℚ n m} (h : l.answer n m = .ok a) :
    a.x.toArray = l.x ∧ a.y.toArray = l.y ∧ a.status = l.status := by
  unfold answer Vec.ofArray? at h
  split at h
  · rename_i x y hx hy
    simp only [Option.dite_none_right_eq_some] at hx hy
    obtain ⟨hn, hx⟩ := hx
    obtain ⟨hm, hy⟩ := hy
    cases hx
    cases hy
    cases h
    exact ⟨rfl, rfl, rfl⟩
  · cases h

end Rational

end ComplementarityQP
