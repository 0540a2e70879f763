import ComplementarityQP.Proofs.Rows
import Mathlib.LinearAlgebra.Matrix.DotProduct
import Mathlib.Tactic.LinearCombination

/-! Linear systems by elimination. Main statement: what it returns solves the system. -/
namespace ComplementarityQP.Mat
open Matrix

variable {K : Type} {m n p q : Nat} [Field K]

theorem exists_otherRow {r k : Fin (n + 1)} (hk : k ≠ r) : ∃ i, otherRow r i = k := by
  cases k using Fin.cases with
  | zero =>
    obtain ⟨i, rfl⟩ := Fin.exists_succ_eq.mpr hk.symm
    exact ⟨i, if_pos rfl⟩
  | succ i => exact ⟨i, if_neg hk⟩

/-- A solution of the system without its first unknown, and without the pivot row, whose multiples
have been taken off the others, extends to one of the whole system. -/
theorem solves_of_reduced {A : Mat K (n + 1) (n + 1)} {b : Fin (n + 1) → K} {y : Fin n → K}
    {r : Fin (n + 1)} (hd : A r 0 ≠ 0)
    (hreduced : ∀ i, ∑ j, (A (otherRow r i) j.succ - A (otherRow r i) 0 / A r 0 * A r j.succ) *
      y j =
      b (otherRow r i) - A (otherRow r i) 0 / A r 0 * b r) (k : Fin (n + 1)) :
    ∑ j, A k j * Fin.cases ((b r - ∑ j, A r j.succ * y j) / A r 0) y j = b k := by
  simp only [Fin.sum_univ_succ, Fin.cases_zero, Fin.cases_succ]
  by_cases hk : k = r
  · rw [hk, mul_div_cancel₀ _ hd, sub_add_cancel]
  · obtain ⟨i, rfl⟩ := exists_otherRow hk
    have hi := hreduced i
    simp only [sub_mul, mul_assoc, Finset.sum_sub_distrib, ← Finset.mul_sum] at hi
    rw [mul_div_left_comm, mul_comm]
    linear_combination hi

variable [LinearOrder K]

theorem mul_of_eliminate? {A : Mat K n n} {B X : Mat K n p} (h : A.eliminate? B = some X) :
    A.mul X = B := by
  induction n with
  | zero =>
    ext i
    exact i.elim0
  | succ n ih =>
    unfold eliminate? at h
    dsimp only at h
    split at h
    · rename_i hpivot
      have hd : A (pivotRow A) 0 ≠ 0 := by
        rw [← lt_or_lt_iff_ne]
        simpa using hpivot
      split at h
      · cases h
      · rename_i Y hY
        cases h
        ext k j
        simp only [mul, get_ofFn, sum_eq_sum, Vec.get_ofFn]
        refine solves_of_reduced (b := fun k => B k j) hd (fun i => ?_) k
        have hrow := congrArg (fun M => get M i j) (ih hY)
        simpa only [mul, get_ofFn, sum_eq_sum, Vec.get_ofFn] using hrow
    · cases h

theorem mulVec_of_solve? {A : Mat K n n} {b x : Vec K n} (h : A.solve? b = some x) :
    A.mulVec x = b := by
  unfold solve? at h
  obtain ⟨X, hX, rfl⟩ := Option.map_eq_some_iff.mp h
  have hcolumn := mul_of_eliminate? hX
  apply Vector.ext
  intro i hi
  have hentry := congrArg (fun M => get M ⟨i, hi⟩ 0) hcolumn
  simpa [mul, mulVec, Vec.get_eq_getElem] using hentry

/-- Whether elimination goes through is up to the matrix alone. -/
theorem isSome_eliminate? (A : Mat K n n) (B : Mat K n p) (B' : Mat K n q) :
    (A.eliminate? B).isSome = (A.eliminate? B').isSome := by
  induction n with
  | zero => rfl
  | succ n ih =>
    unfold eliminate?
    dsimp only
    split
    · have hrec := ih (ofFn fun i j => A (otherRow (pivotRow A) i) j.succ -
        (Vector.ofFn fun i => A (otherRow (pivotRow A) i) 0 / A (pivotRow A) 0 : Vec K n).get i *
          A (pivotRow A) j.succ)
      split <;> split <;> grind
    · rfl

theorem isSome_solve? (A : Mat K n n) (b b' : Vec K n) :
    (A.solve? b).isSome = (A.solve? b').isSome := by
  rw [solve?, solve?, Option.isSome_map, Option.isSome_map, isSome_eliminate?]

/-- The solution of the normal equations of a system that has a solution. -/
theorem mulVec_of_normal [IsStrictOrderedRing K] {A : Mat K m n} {c x : Vec K n}
    (h : (A.transpose.mul A).solve? (A.transposeMulVec (A.mulVec c)) = some x) :
    A.mulVec x = A.mulVec c := by
  have hnormal : A.transposeMulVec (A.mulVec x) = A.transposeMulVec (A.mulVec c) := by
    rw [← mulVec_of_solve? h]
    apply Vec.ext_get
    intro j
    rw [get_transposeMulVec, get_mulVec, get_mulVec, toMatrix_mul, toMatrix_transpose,
      mulVec_mulVec]
  have hzero : A.toMatrixᵀ *ᵥ (A.toMatrix *ᵥ (x.get - c.get)) = 0 := by
    have hget := congrArg Vector.get hnormal
    rw [get_transposeMulVec, get_transposeMulVec, get_mulVec, get_mulVec] at hget
    rw [mulVec_sub, mulVec_sub, hget, sub_self]
  have hself : A.toMatrix *ᵥ (x.get - c.get) ⬝ᵥ A.toMatrix *ᵥ (x.get - c.get) = 0 := by
    rw [dotProduct_mulVec, ← mulVec_transpose, hzero, zero_dotProduct]
  rw [dotProduct_self_eq_zero, mulVec_sub, sub_eq_zero] at hself
  apply Vec.ext_get
  intro j
  rw [get_mulVec, get_mulVec, hself]

end ComplementarityQP.Mat
