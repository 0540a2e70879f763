import ComplementarityQP.Proofs.Exact
import ComplementarityQP.Proofs.Iteration
import ComplementarityQP.Proofs.Options
import Mathlib.Tactic.LinearCombination

/-! The merit along a run of the inner loop. Main statement: no iteration raises it by more than the
tolerance, measured at the point where the iteration begins. -/
namespace ComplementarityQP
open Matrix

variable {K σ : Type} [Field K]

namespace Problem
variable (p : Problem K)

theorem isSymm_cost : p.cost.hess.toMatrix.IsSymm := Mat.isSymm_symmetrize _

theorem isSymm_coupling : p.coupling.hess.toMatrix.IsSymm := by
  simp only [coupling, Mat.toMatrix_add, Mat.toMatrix_mul, Mat.toMatrix_transpose, IsSymm,
    transpose_add, transpose_mul, transpose_transpose]
  exact add_comm _ _

end Problem

variable [LinearOrder K] [IsStrictOrderedRing K]

theorem Quadratic.value_shift {n : Nat} (q : Quadratic K n) (hq : q.hess.toMatrix.IsSymm)
    (x d : Vec K n) (t : K) :
    q.value (x.shift t d) =
      q.value x + t * d.dot (q.gradient x) + t ^ 2 / 2 * d.dot (q.hess.mulVec d) := by
  have hhalf : (0.5 : K) = 1 / 2 := by norm_num
  have hcross : x.get ⬝ᵥ (q.hess.toMatrix *ᵥ d.get) = d.get ⬝ᵥ (q.hess.toMatrix *ᵥ x.get) := by
    rw [dotProduct_mulVec, ← mulVec_transpose, hq.eq, dotProduct_comm]
  simp only [value, gradient, Vec.dot_eq_dotProduct, Mat.get_mulVec, Vec.get_shift, Vec.get_add,
    mulVec_add, mulVec_smul, dotProduct_add, add_dotProduct, dotProduct_smul, smul_dotProduct,
    smul_eq_mul, hcross, dotProduct_comm q.lin.get d.get, hhalf]
  ring

namespace Problem
variable (p : Problem K)

/-- The merit along a line, by the slope and the curvature that the step length is computed from. -/
theorem merit_shift (ρ : K) (x d : Vec K p.vars) (t : K) :
    p.merit ρ (x.shift t d) = p.merit ρ x + t * p.slope ρ x d + t ^ 2 / 2 * p.curvature ρ d := by
  simp only [merit, objective, slope, curvature, Quadratic.value_shift _ p.isSymm_cost,
    Quadratic.value_shift _ p.isSymm_coupling, Vec.dot_shift]
  ring

section Step
variable {p} {ρ : K} {x d : Vec K p.vars}

/-- Along a direction of descent the step is a full one, with the merit still falling at its end, or
it goes to the bottom of the parabola. -/
theorem stepLength_of_descent (hd : p.slope ρ x d < 0) (allowance : K) :
    p.stepLength ρ x d allowance = 1 ∧ p.slope ρ x d + p.curvature ρ d ≤ 0 ∨
      0 < p.stepLength ρ x d allowance ∧ 0 < p.curvature ρ d ∧
        p.slope ρ x d + p.stepLength ρ x d allowance * p.curvature ρ d = 0 := by
  rw [stepLength, if_pos hd]
  generalize p.slope ρ x d = s at hd
  generalize p.curvature ρ d = c
  by_cases hc : 0 < c
  · rw [if_pos hc, atMost_eq_min]
    by_cases hinside : -s / c ≤ 1
    · rw [min_eq_left hinside]
      exact .inr ⟨div_pos (neg_pos.mpr hd) hc, hc, by rw [div_mul_cancel₀ _ hc.ne', add_neg_cancel]⟩
    · rw [min_eq_right (le_of_not_ge hinside)]
      have hend := (one_lt_div hc).mp (lt_of_not_ge hinside)
      exact .inl ⟨rfl, by linarith⟩
  · rw [if_neg hc]
    exact .inl ⟨rfl, by linarith⟩

/-- A step of descent gains at least half of what the slope promises. -/
theorem merit_descent_le (hd : p.slope ρ x d < 0) (allowance : K) :
    0 < p.stepLength ρ x d allowance ∧
      p.merit ρ (x.shift (p.stepLength ρ x d allowance) d) ≤
        p.merit ρ x + p.stepLength ρ x d allowance * p.slope ρ x d / 2 := by
  rw [merit_shift]
  obtain ⟨hfull, hend⟩ | ⟨hpos, -, hbottom⟩ := stepLength_of_descent hd allowance
  · rw [hfull]
    exact ⟨one_pos, by linarith⟩
  · exact ⟨hpos, le_of_eq (by linear_combination p.stepLength ρ x d allowance / 2 * hbottom)⟩

/-- Without descent it is all or nothing, by the rise of the merit over the whole way. -/
theorem stepLength_of_ascent (hd : 0 ≤ p.slope ρ x d) (allowance : K) :
    p.stepLength ρ x d allowance = 1 ∧ p.merit ρ (x.shift 1 d) ≤ p.merit ρ x + allowance ∨
      p.stepLength ρ x d allowance = 0 ∧ p.merit ρ x + allowance < p.merit ρ (x.shift 1 d) := by
  have hhalf : (0.5 : K) = 1 / 2 := by norm_num
  rw [merit_shift, stepLength, if_neg (not_lt.mpr hd), hhalf]
  split
  · exact .inl ⟨rfl, by linarith⟩
  · exact .inr ⟨rfl, by linarith⟩

end Step

theorem merit_step_le (ρ : K) (x d : Vec K p.vars) {allowance : K} (ha : 0 ≤ allowance) :
    p.merit ρ (x.shift (p.stepLength ρ x d allowance) d) ≤ p.merit ρ x + allowance := by
  by_cases hd : p.slope ρ x d < 0
  · obtain ⟨hpos, hle⟩ := merit_descent_le hd allowance
    have hfall := mul_neg_of_pos_of_neg hpos hd
    linarith
  · obtain ⟨hfull, hle⟩ | ⟨hnone, -⟩ := stepLength_of_ascent (le_of_not_gt hd) allowance
    · rw [hfull]
      exact hle
    · rw [hnone, merit_shift]
      linarith

variable {p} {o : Options K}

theorem meritBudget_eq (ρ : K) (x : Vec K p.vars) :
    p.meritBudget o ρ x = o.meritTol * max 1 |p.merit ρ x| := by
  rw [meritBudget, atLeast_eq_max, magnitude_eq_abs]

theorem meritBudget_nonneg (ho : 0 ≤ o.meritTol) (ρ : K) (x : Vec K p.vars) :
    0 ≤ p.meritBudget o ρ x := by
  rw [meritBudget_eq]
  exact mul_nonneg ho (zero_le_one.trans (le_max_left _ _))

/-- The nudge stays within the budget, since it is undone otherwise. -/
theorem merit_nudged_le (ho : 0 ≤ o.meritTol) (ρ : K) (iteration : Nat) (x : Vec K p.vars) :
    p.merit ρ (p.nudged o ρ iteration x) ≤ p.merit ρ x + p.meritBudget o ρ x := by
  have hbudget := meritBudget_nonneg ho ρ x
  unfold nudged
  split
  · dsimp only
    split
    · linarith
    · linarith
  · linarith

end Problem

variable [Special K] {p : Problem K} {o : Options K}

namespace InnerLoop
variable {host : Host K σ} {sub : Subproblem p} {ρ : K}

theorem merit_moved_le (ho : o.Valid) (l : InnerLoop p) (total : Nat) :
    p.merit ρ (l.moved o ρ total).point.x ≤ p.merit ρ l.point.x + p.meritBudget o ρ l.point.x :=
  Problem.merit_nudged_le ho.meritTol.1 ρ total l.point.x

/-- The nudge and the step share one budget. -/
theorem merit_landing_le (ho : o.Valid) (l : InnerLoop p) (total : Nat)
    (a : Answer K p.vars p.duals) :
    p.merit ρ (l.landing o ρ total a).x ≤ p.merit ρ l.point.x + p.meritBudget o ρ l.point.x := by
  have hleft : 0 ≤ l.allowance o ρ total := sub_nonneg.mpr (merit_moved_le ho l total)
  calc p.merit ρ (l.landing o ρ total a).x
      ≤ p.merit ρ (l.moved o ρ total).point.x + l.allowance o ρ total :=
        p.merit_step_le ρ (l.moved o ρ total).point.x (l.direction o ρ total a) hleft
    _ = p.merit ρ l.point.x + p.meritBudget o ρ l.point.x := add_sub_cancel _ _

/-- One iteration raises the merit by at most the budget, whether it completes or not. -/
theorem merit_iterate_le (ho : o.Valid) {l l' : InnerLoop p} {pr pr' : Progress K σ}
    {st : Option InnerStatus} (h : l.iterate host o sub ρ pr = (st, l', pr')) :
    p.merit ρ l'.point.x ≤ p.merit ρ l.point.x + p.meritBudget o ρ l.point.x := by
  cases iterate_outcome h with
  | aborted check => exact le_add_of_nonneg_right (Problem.meritBudget_nonneg ho.meritTol.1 ρ _)
  | failed check solve => exact merit_moved_le ho l _
  | stepped check solve report exit =>
    obtain ⟨window, rfl⟩ := exit_loop exit
    exact merit_landing_le ho l _ _

theorem isChain_trail (ho : o.Valid) (left : Nat) (l : InnerLoop p) (pr : Progress K σ) :
    (trail host o sub ρ left l pr).IsChain fun x x' =>
      p.merit ρ x' ≤ p.merit ρ x + p.meritBudget o ρ x := by
  fun_induction trail host o sub ρ left l pr with
  | case1 left l pr st l' pr' h hst => exact List.isChain_pair.mpr (merit_iterate_le ho h)
  | case2 left l pr st l' pr' h hst => exact .singleton _
  | case3 l pr l' pr' h => exact List.isChain_pair.mpr (merit_iterate_le ho h)
  | case4 l pr l' pr' h left ih =>
    refine List.isChain_cons.mpr ⟨fun x hx => ?_, ih⟩
    rw [trail_head] at hx
    cases hx
    exact merit_iterate_le ho h

variable (host sub ρ) (it : Iterate p) (pr : Progress K σ)

/-- The merit along an inner loop: the points of the run, as many as it counts iterations, and no
step from one to the next raises the merit by more than the tolerance at the point that it
leaves. -/
theorem merit_rises_within_tolerance (ho : o.validate = .ok ()) :
    let r := (run host o sub ρ it pr).1
    let points := trail host o sub ρ (o.maxInner - 1) (start p ρ it) pr
    points.head? = some it.x ∧
    points.length = r.iterations + 1 ∧
    (r.status.completes = true → points.getLast? = some r.point.x) ∧
    points.IsChain fun x x' => p.merit ρ x' ≤ p.merit ρ x + o.meritTol * max 1 |p.merit ρ x| := by
  have hvalid := Options.validate_eq_ok_iff.mp ho
  obtain ⟨hlength, hlast⟩ := trail_ends host o sub ρ (o.maxInner - 1) (start p ρ it) pr
  refine ⟨trail_head host o sub ρ _ _ _, ?_, hlast, ?_⟩
  · exact (Nat.zero_add _).symm.trans hlength
  · simpa only [Problem.meritBudget_eq] using isChain_trail hvalid (o.maxInner - 1)
      (start p ρ it) pr

/-- A level of the warm-up problem, from the origin. -/
theorem merit_rises_within_tolerance_warmUp :
    Options.default.validate (K := ℚ) = .ok () ∧
    let host := Host.answering [some .uncoupled]
    let points :=
      trail host Options.default ⟨0⟩ 1 999 (start Problem.warmUp 1 ⟨Vec.zero _, Vec.zero _⟩)
      (.start host 0)
    points.length = 2 ∧ points.IsChain fun x x' => Problem.warmUp.merit 1 x' ≤
      Problem.warmUp.merit 1 x + Options.default.meritTol * max 1 |Problem.warmUp.merit 1 x| := by
  have ho := Options.validate_eq_ok_iff.mpr (Options.valid_default (K := ℚ) fun _ => rfl)
  have hmerit := merit_rises_within_tolerance (Host.answering [some .uncoupled]) ⟨0⟩ 1
    (⟨Vec.zero _, Vec.zero _⟩ : Iterate Problem.warmUp) (.start (.answering [some .uncoupled]) 0) ho
  exact ⟨ho, by decide +kernel, hmerit.2.2.2⟩

end InnerLoop

end ComplementarityQP
