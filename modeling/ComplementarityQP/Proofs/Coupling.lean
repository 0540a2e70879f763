import ComplementarityQP.Proofs.Multipliers
import ComplementarityQP.Proofs.Optimality

/-! The penalty in its two forms. Main statement: the quadratic form of the merit is the sum of the
products of the gaps, which is also what the complementarity measures where no gap is negative. -/
namespace ComplementarityQP
open Matrix

variable {K : Type} [Field K]

theorem Side.get_gap_eq_mulVec {q n : Nat} (s : Side K q n) (x : Vec K n) :
    (s.gap x).get = s.coeff.toMatrix *ᵥ x.get - s.lower.get := by
  rw [gap, Vec.get_sub, Mat.get_mulVec]

namespace Problem
variable (p : Problem K) (x : Vec K p.vars)

/-- The Hessian of the penalty couples the rows of each pair twice, from either side. -/
theorem dot_coupling_hess : x.dot (p.coupling.hess.mulVec x) =
    2 * (p.left.coeff.toMatrix *ᵥ x.get ⬝ᵥ p.right.coeff.toMatrix *ᵥ x.get) := by
  have hleft : x.get ⬝ᵥ (p.left.coeff.toMatrixᵀ *ᵥ (p.right.coeff.toMatrix *ᵥ x.get)) =
      p.left.coeff.toMatrix *ᵥ x.get ⬝ᵥ p.right.coeff.toMatrix *ᵥ x.get := by
    rw [dotProduct_mulVec, vecMul_transpose]
  have hright : x.get ⬝ᵥ (p.right.coeff.toMatrixᵀ *ᵥ (p.left.coeff.toMatrix *ᵥ x.get)) =
      p.left.coeff.toMatrix *ᵥ x.get ⬝ᵥ p.right.coeff.toMatrix *ᵥ x.get := by
    rw [dotProduct_mulVec, vecMul_transpose, dotProduct_comm]
  rw [Vec.dot_eq_dotProduct, Mat.get_mulVec, coupling, Mat.toMatrix_add, Mat.toMatrix_mul,
    Mat.toMatrix_mul, Mat.toMatrix_transpose, Mat.toMatrix_transpose, add_mulVec, ← mulVec_mulVec,
    ← mulVec_mulVec, dotProduct_add, hleft, hright, two_mul]

/-- The bounds enter the linear part crosswise. -/
theorem coupling_lin_dot : p.coupling.lin.dot x =
    -(p.left.lower.get ⬝ᵥ p.right.coeff.toMatrix *ᵥ x.get +
      p.right.lower.get ⬝ᵥ p.left.coeff.toMatrix *ᵥ x.get) := by
  rw [Vec.dot_eq_dotProduct, coupling, Vec.get_neg, Vec.get_add, Mat.get_transposeMulVec,
    Mat.get_transposeMulVec, neg_dotProduct, add_dotProduct, mulVec_transpose, mulVec_transpose,
    ← dotProduct_mulVec, ← dotProduct_mulVec]

theorem merit_eq (ρ : K) :
    p.merit ρ x = p.objective x + ρ * (p.penalty x - p.left.lower.dot p.right.lower) := by
  rw [merit, penalty, couplingConstant, add_sub_cancel_right]

variable [LinearOrder K] [IsStrictOrderedRing K]

theorem penalty_eq_sum : p.penalty x = ∑ i, (p.left.gap x).get i * (p.right.gap x).get i := by
  have hhalf : (0.5 : K) = 1 / 2 := by norm_num
  change _ = (p.left.gap x).get ⬝ᵥ (p.right.gap x).get
  rw [Side.get_gap_eq_mulVec, Side.get_gap_eq_mulVec, penalty, Quadratic.value, dot_coupling_hess,
    coupling_lin_dot, couplingConstant, Vec.dot_eq_dotProduct, sub_dotProduct, dotProduct_sub,
    dotProduct_sub, hhalf, dotProduct_comm (p.left.coeff.toMatrix *ᵥ x.get) p.right.lower.get]
  ring

theorem complementarity_eq_sum :
    p.complementarity x = ∑ i, |(p.left.gap x).get i * (p.right.gap x).get i| := by
  simp only [complementarity, sum_eq_sum, magnitude_eq_abs]

theorem abs_penalty_le : |p.penalty x| ≤ p.complementarity x := by
  rw [penalty_eq_sum, complementarity_eq_sum]
  exact Finset.abs_sum_le_sum_abs _ _

/-- Only pairs with gaps of opposite signs keep the two apart. -/
theorem penalty_eq_complementarity_iff :
    p.penalty x = p.complementarity x ↔ ∀ i, 0 ≤ (p.left.gap x).get i * (p.right.gap x).get i := by
  rw [penalty_eq_sum, complementarity_eq_sum, Finset.sum_eq_sum_iff_of_le fun i _ => le_abs_self _]
  simp only [Finset.mem_univ, forall_const]
  exact forall_congr' fun i => eq_comm.trans abs_eq_self

/-- The penalty is the sum of the products of the gaps, so it is at most the complementarity in
magnitude, and equal to it at every point that keeps the lower bounds of the pairs. The merit leaves
out the constant part of the penalty, which cancels in differences. The gradient of the penalty
weights each side with the gaps of the other. -/
theorem penalty_agrees_with_gaps :
    p.penalty x = ∑ i, (p.left.gap x).get i * (p.right.gap x).get i ∧
    |p.penalty x| ≤ p.complementarity x ∧
    ((∀ i, p.left.lower.get i ≤ (p.left.coeff.mulVec x).get i ∧
        p.right.lower.get i ≤ (p.right.coeff.mulVec x).get i) → p.penalty x = p.complementarity x) ∧
    (∀ ρ, p.merit ρ x = p.objective x + ρ * (p.penalty x - p.left.lower.dot p.right.lower)) ∧
    (∀ ρ z, p.merit ρ z - p.merit ρ x =
      (p.objective z + ρ * p.penalty z) - (p.objective x + ρ * p.penalty x)) ∧
    p.coupling.gradient x =
      p.left.coeff.transposeMulVec (p.right.gap x) + p.right.coeff.transposeMulVec
        (p.left.gap x) := by
  refine ⟨p.penalty_eq_sum x, p.abs_penalty_le x, fun h => ?_, p.merit_eq x, fun ρ z => ?_, ?_⟩
  · refine (p.penalty_eq_complementarity_iff x).mpr fun i => ?_
    obtain ⟨hleft, hright⟩ := h i
    rw [Side.get_gap, Side.get_gap]
    exact mul_nonneg (sub_nonneg.mpr hleft) (sub_nonneg.mpr hright)
  · rw [merit_eq, merit_eq]
    ring
  · apply Vec.ext_get
    intro j
    rw [get_coupling_gradient, Vec.get_add, Mat.get_transposeMulVec, Mat.get_transposeMulVec]

/-- The warm-up problem with the lower bounds `½` and `-1`. -/
def offset : Problem ℚ :=
  { warmUp with
    left := { warmUp.left with lower := #v[1 / 2] }
    right := { warmUp.right with lower := #v[-1] } }

/-- The gaps at `(3/2, 1)` are 1 and 2. At `(0, 1)` the left one is negative, and the penalty with
it. -/
theorem penalty_agrees_with_gaps_offset :
    let x : Vec ℚ 2 := #v[3 / 2, 1]
    let z : Vec ℚ 2 := #v[0, 1]
    ((∀ i, offset.left.lower.get i ≤ (offset.left.coeff.mulVec x).get i ∧
        offset.right.lower.get i ≤ (offset.right.coeff.mulVec x).get i) ∧
      offset.penalty x = offset.complementarity x ∧ offset.complementarity x = 2) ∧
    |offset.penalty z| ≤ offset.complementarity z ∧ offset.penalty z = -1 := by
  intro x z
  have hbounds : ∀ i, offset.left.lower.get i ≤ (offset.left.coeff.mulVec x).get i ∧
      offset.right.lower.get i ≤ (offset.right.coeff.mulVec x).get i := by
    decide +kernel
  obtain ⟨-, -, hequal, -⟩ := penalty_agrees_with_gaps offset x
  obtain ⟨-, hle, -⟩ := penalty_agrees_with_gaps offset z
  exact ⟨⟨hbounds, hequal hbounds, by decide +kernel⟩, hle, by decide +kernel⟩

end Problem

end ComplementarityQP
