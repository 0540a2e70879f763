import ComplementarityQP.Proofs.Feasibility
import ComplementarityQP.Proofs.Merit
import Mathlib.LinearAlgebra.Matrix.DotProduct
import Mathlib.Tactic.Abel

/-! Descent of the merit. Main statement: the way from a feasible point to the solution of the
subproblem there leads downwards, unless the point is stationary already. -/
namespace ComplementarityQP
open Matrix

variable {K σ : Type} [Field K] [LinearOrder K]

/-- The optimality conditions: `P x + q = Aᵀ y`, the bounds hold, and a multiplier is positive only
at the lower and negative only at the upper bound of its row. -/
structure Qp.Optimal {n m : Nat} (qp : Qp K n m) (x : Vec K n) (y : Vec K m) : Prop where
  stationary : qp.cost.gradient x = qp.rows.coeff.transposeMulVec y
  feasible : qp.rows.Holds x
  atLower (i : Fin m) : 0 < y.get i → qp.rows.lower.get i = .at ((qp.rows.coeff.mulVec x).get i)
  atUpper (i : Fin m) : y.get i < 0 → qp.rows.upper.get i = .at ((qp.rows.coeff.mulVec x).get i)

/-- What the solver calls a solution is one, for programs with the rows of the problem. -/
def Backend.Solves (b : Backend K σ) (p : Problem K) : Prop :=
  ∀ (qp : Qp K p.vars p.duals) hint s a, qp.rows = p.stacked → (b.solve qp hint s).1 = .ok a →
    a.status = .solved →
    qp.Optimal a.x a.y

theorem Backend.Solves.feasible {b : Backend K σ} {p : Problem K} (h : b.Solves p) :
    b.Feasible p := by
  intro qp hint s a hrows hsolve hstatus
  rw [← hrows]
  exact (h qp hint s a hrows hsolve hstatus).feasible

structure Problem.Critical (p : Problem K) (ρ : K) (x : Vec K p.vars) (y : Vec K p.duals) :
    Prop where
  stationary : p.penaltyResidual ρ x y = Vec.zero p.vars
  atLower (i : Fin p.duals) : 0 < y.get i →
    p.stacked.lower.get i = .at ((p.stacked.coeff.mulVec x).get i)
  atUpper (i : Fin p.duals) : y.get i < 0 →
    p.stacked.upper.get i = .at ((p.stacked.coeff.mulVec x).get i)

namespace Subproblem
variable {p : Problem K} (s : Subproblem p)

/-- `Q + δ I` is positive definite. -/
def Definite : Prop := ∀ v : Vec K p.vars, v ≠ Vec.zero p.vars → 0 < v.dot (s.hess.mulVec v)

omit [LinearOrder K] in
theorem get_hess_mulVec (v : Vec K p.vars) :
    (s.hess.mulVec v).get = (p.cost.hess.mulVec v).get + s.shift • v.get := by
  rw [Mat.get_mulVec, Mat.get_mulVec, hess, Mat.toMatrix_addDiagonal, add_mulVec, smul_mulVec,
    one_mulVec]

omit [LinearOrder K] in
theorem dot_hess_mulVec (v : Vec K p.vars) :
    v.dot (s.hess.mulVec v) = v.dot (p.cost.hess.mulVec v) + s.shift * v.dot v := by
  rw [Vec.dot_eq_dotProduct, get_hess_mulVec, dotProduct_add, dotProduct_smul, smul_eq_mul,
    Vec.dot_eq_dotProduct, Vec.dot_eq_dotProduct]

theorem get_recentre (hshift : 0 ≤ s.shift) (c x : Vec K p.vars) :
    (s.recentre c x).get = c.get - s.shift • x.get := by
  unfold recentre
  split
  · rw [Vec.get_shift, neg_smul, sub_eq_add_neg]
  · rename_i hpos
    rw [le_antisymm (not_lt.mp hpos) hshift, zero_smul, sub_zero]

variable {s} {ρ : K} {x z : Vec K p.vars} {y : Vec K p.duals}

variable (s) in
/-- The residual of a subproblem is that of the penalty problem at the point of linearization, and
what the shifted Hessian adds on the way from there. -/
theorem get_penalized_residual (hshift : 0 ≤ s.shift) (ρ : K) (x z : Vec K p.vars)
    (y : Vec K p.duals) :
    ((s.penalized x ρ).cost.gradient z - p.stacked.coeff.transposeMulVec y).get =
      (p.penaltyResidual ρ x y).get + (s.hess.mulVec (z - x)).get := by
  have hgradient : ((s.penalized x ρ).cost.gradient z).get =
      (s.hess.mulVec z).get + (s.gradient x ρ).get :=
    Vec.get_add _ _
  rw [Vec.get_sub, hgradient, gradient, s.get_recentre hshift, get_hess_mulVec, get_hess_mulVec]
  simp only [Problem.penaltyResidual, Problem.residual, Quadratic.gradient, Problem.cost,
    Vec.get_shift, Vec.get_add, Vec.get_sub, Mat.get_mulVec, mulVec_sub, smul_add, smul_sub]
  abel

theorem penalized_residual (hshift : 0 ≤ s.shift) :
    (s.penalized x ρ).cost.gradient x - p.stacked.coeff.transposeMulVec y =
      p.penaltyResidual ρ x y := by
  apply Vec.ext_get
  intro j
  rw [s.get_penalized_residual hshift, Mat.get_mulVec, Vec.get_sub, sub_self, mulVec_zero, add_zero]

/-- Multipliers that fit `z` leave at `x` what the shifted Hessian takes away on the way to `z`. -/
theorem get_penaltyResidual_of_stationary (hshift : 0 ≤ s.shift)
    (h : (s.penalized x ρ).cost.gradient z = p.stacked.coeff.transposeMulVec y) :
    (p.penaltyResidual ρ x y).get = -(s.hess.mulVec (z - x)).get := by
  rw [eq_neg_iff_add_eq_zero, ← s.get_penalized_residual hshift, Vec.get_sub, h, sub_self]

/-- The solutions that stay at the point of linearization are the stationary points of the penalty
problem. -/
theorem optimal_iff_critical (hshift : 0 ≤ s.shift) :
    (s.penalized x ρ).Optimal x y ↔ p.Critical ρ x y ∧ p.stacked.Holds x := by
  have hstationary : (s.penalized x ρ).cost.gradient x = p.stacked.coeff.transposeMulVec y ↔
      p.penaltyResidual ρ x y = Vec.zero p.vars := by
    rw [← penalized_residual hshift, Vec.sub_eq_zero_iff]
  constructor
  · intro h
    exact ⟨⟨hstationary.mp h.stationary, h.atLower, h.atUpper⟩, h.feasible⟩
  · rintro ⟨hcritical, hholds⟩
    exact ⟨hstationary.mpr hcritical.stationary, hholds, hcritical.atLower, hcritical.atUpper⟩

/-- The multipliers of the solution have nothing to gain on the way from a feasible point. -/
theorem multipliers_dot_le [IsStrictOrderedRing K] (hx : p.violation x = 0)
    (h : (s.penalized x ρ).Optimal z y) :
    y.dot (p.stacked.coeff.mulVec (z - x)) ≤ 0 := by
  rw [Vec.dot_eq_dotProduct, dotProduct]
  refine Finset.sum_nonpos fun i _ => ?_
  obtain ⟨hlower, hupper⟩ := (p.stacked.violation_le_iff.mp hx.le).2 i
  rw [Mat.get_mulVec_sub]
  obtain hneg | hzero | hpos := lt_trichotomy (y.get i) 0
  · have hbound : p.stacked.upper.get i = .at ((p.stacked.coeff.mulVec z).get i) := h.atUpper i hneg
    exact mul_nonpos_of_nonpos_of_nonneg hneg.le (by linarith [hupper _ hbound])
  · rw [hzero, zero_mul]
  · have hbound : p.stacked.lower.get i = .at ((p.stacked.coeff.mulVec z).get i) := h.atLower i hpos
    exact mul_nonpos_of_nonneg_of_nonpos hpos.le (by linarith [hlower _ hbound])

theorem slope_le [IsStrictOrderedRing K] (hshift : 0 ≤ s.shift) (hx : p.violation x = 0)
    (h : (s.penalized x ρ).Optimal z y) :
    p.slope ρ x (z - x) ≤ -(z - x).dot (s.hess.mulVec (z - x)) := by
  have hgradient : ((p.cost.gradient x).shift ρ (p.coupling.gradient x)).get =
      (p.stacked.coeff.transposeMulVec y).get - (s.hess.mulVec (z - x)).get := by
    rw [sub_eq_add_neg, ← get_penaltyResidual_of_stationary hshift h.stationary]
    simp only [Problem.penaltyResidual, Problem.residual, Vec.get_shift, Vec.get_sub]
    abel
  have hslope : p.slope ρ x (z - x) =
      y.dot (p.stacked.coeff.mulVec (z - x)) - (z - x).dot (s.hess.mulVec (z - x)) := by
    rw [Problem.slope, Vec.dot_eq_dotProduct, hgradient, dotProduct_sub, ← Vec.dot_eq_dotProduct,
      ← Vec.dot_eq_dotProduct, Mat.dot_transposeMulVec]
  rw [hslope]
  linarith [multipliers_dot_le hx h]

theorem slope_neg [IsStrictOrderedRing K] (hdefinite : s.Definite) (hshift : 0 ≤ s.shift)
    (hx : p.violation x = 0) (h : (s.penalized x ρ).Optimal z y) (hzx : z ≠ x) :
    p.slope ρ x (z - x) < 0 := by
  have hstep : z - x ≠ Vec.zero p.vars := mt Vec.sub_eq_zero_iff.mp hzx
  linarith [slope_le hshift hx h, hdefinite _ hstep]

end Subproblem

variable [IsStrictOrderedRing K] {p : Problem K}

/-- Along a direction of descent the step goes some way, and the merit falls. -/
theorem Problem.merit_step_lt {ρ : K} {x d : Vec K p.vars} (hd : p.slope ρ x d < 0)
    (allowance : K) :
    0 < p.stepLength ρ x d allowance ∧
      p.merit ρ (x.shift (p.stepLength ρ x d allowance) d) < p.merit ρ x := by
  obtain ⟨hpos, hle⟩ := merit_descent_le hd allowance
  have hfall := mul_neg_of_pos_of_neg hpos hd
  exact ⟨hpos, by linarith⟩

namespace InnerLoop
variable [Special K] {host : Host K σ} {o : Options K} {sub : Subproblem p} {ρ : K}
  {l l' : InnerLoop p} {pr pr' : Progress K σ} {st : Option InnerStatus}

omit [IsStrictOrderedRing K] in
theorem optimal_of_solveAt (hsolves : host.backend.Solves p) {x : Vec K p.vars} {y : Vec K p.duals}
    {a : Answer K p.vars p.duals} (h : pr.solveAt host sub (sub.penalized x ρ) x y = (.ok a, pr')) :
    (sub.penalized x ρ).Optimal a.x a.y := by
  obtain ⟨hsolve, hstatus, -⟩ := Progress.solveAt_eq_ok_iff.mp (congrArg Prod.fst h)
  exact hsolves _ _ _ a rfl hsolve hstatus

/-- An iteration that completes where it linearizes at a feasible point. -/
theorem stationary_or_falls (hsolves : host.backend.Solves p) (hdefinite : sub.Definite)
    (hshift : 0 ≤ sub.shift) (h : l.iterate host o sub ρ pr = (st, l', pr'))
    (hdone : l'.iterations = l.iterations + 1)
    (hfeasible : p.violation (l.moved o ρ pr.total).point.x = 0) :
    (∃ y, p.Critical ρ (l.moved o ρ pr.total).point.x y) ∨
      p.merit ρ l'.point.x < p.merit ρ (l.moved o ρ pr.total).point.x := by
  cases iterate_outcome h with
  | aborted check => omega
  | failed check solve => exact absurd hdone (Nat.lt_succ_self _).ne
  | @stepped pr₁ _ _ a _ _ check solve report exit =>
    rw [← (Progress.quiet_of_shouldAbort check).total] at hfeasible ⊢
    have hoptimal := optimal_of_solveAt hsolves solve
    by_cases hfixed : a.x = (l.moved o ρ pr₁.total).point.x
    · rw [hfixed] at hoptimal
      exact .inl ⟨a.y, ((Subproblem.optimal_iff_critical hshift).mp hoptimal).1⟩
    · have hslope := Subproblem.slope_neg hdefinite hshift hfeasible hoptimal hfixed
      obtain ⟨window, rfl⟩ := exit_loop exit
      exact .inr (Problem.merit_step_lt hslope _).2

/-- Without a nudge the points of a loop fall from the first to the last, up to a stationary one. -/
theorem isChain_trail_falls (hsolves : host.backend.Solves p) (hdefinite : sub.Definite)
    (hshift : 0 ≤ sub.shift) (hstill : o.nudge = false ∨ p.pairs = 0) (left : Nat) (l : InnerLoop p)
    (pr : Progress K σ) (hl : p.violation l.point.x = 0) :
    (trail host o sub ρ left l pr).IsChain fun x x' =>
      (∃ y, p.Critical ρ x y) ∨ p.merit ρ x' < p.merit ρ x := by
  have hmoved (l : InnerLoop p) (total : Nat) : (l.moved o ρ total).point.x = l.point.x :=
    Problem.nudged_eq_self hstill ρ total _
  have hstep {l l' : InnerLoop p} {pr pr' : Progress K σ} {st : Option InnerStatus}
    (hl : p.violation l.point.x = 0)
      (h : l.iterate host o sub ρ pr = (st, l', pr')) (hdone : l'.iterations = l.iterations + 1) :
      (∃ y, p.Critical ρ l.point.x y) ∨ p.merit ρ l'.point.x < p.merit ρ l.point.x := by
    simpa only [hmoved] using stationary_or_falls hsolves hdefinite hshift h hdone
      (by rw [hmoved, hl])
  fun_induction trail host o sub ρ left l pr with
  | case1 left l pr st l' pr' h hst =>
    have hdone := iterations_of_some h
    rw [hst] at hdone
    exact List.isChain_pair.mpr (hstep hl h hdone)
  | case2 left l pr st l' pr' h hst => exact .singleton _
  | case3 l pr l' pr' h => exact List.isChain_pair.mpr (hstep hl h (iterations_of_none h))
  | case4 l pr l' pr' h left ih =>
    refine List.isChain_cons.mpr
      ⟨fun x hx => ?_, ih (feasible_iterate hsolves.feasible hstill hl h)⟩
    rw [trail_head] at hx
    cases hx
    exact hstep hl h (iterations_of_none h)

variable (sub ρ) in
/-- At a point `x` that satisfies the rows, every solution `z` of the subproblem with the
multipliers `y` tells a direction: the merit has a slope of at most `-(dᵀ Q d + δ dᵀ d)` along `d =
z - x`. If `Q + δ I` is positive definite, then the step goes some way along `d` and the merit
falls, unless `z = x`. So an iteration with an exact solver lowers the merit, unless `x` is
stationary for the penalty problem, and a loop without a nudge lowers it from point to point. With
one, nothing is said of an iteration whose nudge leaves the bounds, as the point it linearizes at is
not feasible. -/
theorem falls_unless_stationary (hshift : 0 ≤ sub.shift) :
    (∀ x z y, p.violation x = 0 → (sub.penalized x ρ).Optimal z y →
      let d := z - x
      p.slope ρ x d ≤ -(d.dot (p.cost.hess.mulVec d) + sub.shift * d.dot d) ∧
      (sub.Definite → z ≠ x → p.slope ρ x d < 0 ∧ ∀ allowance,
        0 < p.stepLength ρ x d allowance ∧
        p.merit ρ (x.shift (p.stepLength ρ x d allowance) d) < p.merit ρ x)) ∧
    (sub.Definite → ∀ (host : Host K σ) (o : Options K), host.backend.Solves p →
      (∀ (l : InnerLoop p) pr st l' pr', l.iterate host o sub ρ pr = (st, l', pr') →
        l'.iterations = l.iterations + 1 →
        let x := p.nudged o ρ pr.total l.point.x
        p.violation x = 0 → (∀ y, ¬p.Critical ρ x y) → l'.point.x ≠ x ∧
          p.merit ρ l'.point.x < p.merit ρ x) ∧
      (o.nudge = false ∨ p.pairs = 0 → ∀ it pr, p.violation it.x = 0 →
        (trail host o sub ρ (o.maxInner - 1) (start p ρ it) pr).IsChain fun x x' =>
          (∃ y, p.Critical ρ x y) ∨ p.merit ρ x' < p.merit ρ x)) := by
  refine ⟨fun x z y hx hoptimal => ⟨?_, fun hdefinite hzx => ?_⟩,
    fun hdefinite host o hsolves => ⟨?_, ?_⟩⟩
  · rw [← Subproblem.dot_hess_mulVec]
    exact Subproblem.slope_le hshift hx hoptimal
  · have hslope := Subproblem.slope_neg hdefinite hshift hx hoptimal hzx
    exact ⟨hslope, Problem.merit_step_lt hslope⟩
  · intro l pr st l' pr' h hdone x hx hcritical
    obtain ⟨y, hy⟩ | hfalls := stationary_or_falls hsolves hdefinite hshift h hdone hx
    · exact absurd hy (hcritical y)
    · exact ⟨fun hsame => hfalls.ne (congrArg (p.merit ρ) hsame), hfalls⟩
  · intro hstill it pr hit
    exact isChain_trail_falls hsolves hdefinite hshift hstill _ _ pr hit

end InnerLoop

/-- The solution of a program with the Hessian `2 I` and the rows `0 ≤ x`. -/
theorem Qp.optimal_projection {n : Nat} (qp : Qp ℚ n n)
    (hhess : ∀ i j, qp.cost.hess i j = if i = j then 2 else 0)
    (hcoeff : ∀ i j, qp.rows.coeff i j = if i = j then 1 else 0)
    (hlower : ∀ i, qp.rows.lower.get i = .at 0) (hupper : ∀ i, qp.rows.upper.get i = .posInf) :
    qp.Optimal (Vector.ofFn fun i => max 0 (-qp.cost.lin.get i / 2))
      (Vector.ofFn fun i => max 0 (qp.cost.lin.get i)) where
  stationary := by
    apply Vec.ext_get
    intro j
    rw [Quadratic.gradient, Vec.get_add]
    simp only [Mat.mulVec, Mat.transposeMulVec, sum_eq_sum, hhess, hcoeff, Pi.add_apply,
      Vec.get_ofFn, ite_mul, zero_mul, one_mul, Finset.sum_ite_eq, Finset.sum_ite_eq',
      Finset.mem_univ, if_true]
    grind
  feasible i := by
    rw [hlower, hupper]
    simp [Mat.mulVec, sum_eq_sum, hcoeff, Bound.Keeps]
  atLower i hi := by
    rw [hlower]
    simp [Mat.mulVec, sum_eq_sum, hcoeff] at hi ⊢
    linarith
  atUpper i hi := by
    simp at hi

/-- A solver for such programs, which declines other Hessians, and a clock that stands still. -/
def Host.projecting : Host ℚ Unit where
  backend := {
    name := "projecting"
    needsDefinite := true
    solve {n m} qp _ s :=
      let x := Vector.ofFn fun i => max 0 (-qp.cost.lin.get i / 2)
      let y :=
        Vector.ofFn fun i : Fin m => if h : i.val < n then max 0 (qp.cost.lin.get ⟨i, h⟩) else 0
      let known := ∀ i j, qp.cost.hess i j = if i = j then 2 else 0
      (.ok ⟨x, y, if known then .solved else .numericalError, 0, 1⟩, s) }
  observe _ s := s
  cancelled s := (false, s)
  clock s := (0, s)

theorem Problem.warmUp_stacked : Problem.warmUp.stacked =
    ⟨Mat.ofFn fun i j => if i.val = j.val then 1 else 0, Vector.replicate 2 (.at 0),
      Vector.replicate 2 .posInf⟩ := by
  have hlower : Problem.warmUp.stacked.lower = Vector.replicate 2 (.at 0) := by
    simp only [stacked, Rows.stack, Side.rows, warmUp, Vector.map_mk, List.map_toArray,
      List.map_cons, List.map_nil]
    rfl
  exact Rows.mk.injEq .. ▸ ⟨rfl, hlower, rfl⟩

theorem Host.projecting_solves : Host.projecting.backend.Solves Problem.warmUp := by
  intro qp hint s a hrows hsolve hstatus
  cases hsolve
  have hhess : ∀ i j, qp.cost.hess i j = if i = j then 2 else 0 := by
    by_contra hno
    simp [hno] at hstatus
  refine Qp.optimal_projection (n := 2) qp hhess (fun i j => ?_) (fun i => ?_) fun i => ?_
  · rw [hrows, Problem.warmUp_stacked]
    exact (Mat.get_ofFn _ i j).trans (by simp [Fin.ext_iff])
  · rw [hrows, Problem.warmUp_stacked]
    simp [Vec.get_eq_getElem]
  · rw [hrows, Problem.warmUp_stacked]
    simp [Vec.get_eq_getElem]

theorem Subproblem.warmUp_definite : (⟨0⟩ : Subproblem Problem.warmUp).Definite := by
  intro v hv
  have hentry : ∀ i j, (⟨0⟩ : Subproblem Problem.warmUp).hess i j =
      if i = j then 2 else 0 := by decide +kernel
  have hhess : (⟨0⟩ : Subproblem Problem.warmUp).hess.toMatrix = (2 : ℚ) • 1 := by
    ext i j
    simp [hentry, Matrix.one_apply]
  have hpos : 0 < v.get ⬝ᵥ v.get := by
    refine lt_of_le_of_ne (Finset.sum_nonneg fun i _ => mul_self_nonneg _) fun hzero => hv ?_
    have hv0 := dotProduct_self_eq_zero.mp hzero.symm
    apply Vec.ext_get
    intro i
    rw [hv0, Vec.get_zero, Pi.zero_apply]
  rw [Vec.dot_eq_dotProduct, Mat.get_mulVec, hhess, smul_mulVec, one_mulVec, dotProduct_smul,
    smul_eq_mul]
  linarith

/-- From the origin of the warm-up problem, where the merit falls along the diagonal. -/
theorem InnerLoop.falls_unless_stationary_warmUp :
    let sub : Subproblem Problem.warmUp := ⟨0⟩
    let o : Options ℚ := { Options.default with nudge := false }
    let points :=
      trail Host.projecting o sub 1 (o.maxInner - 1)
        (start Problem.warmUp 1 ⟨Vec.zero _, Vec.zero _⟩)
      (.start Host.projecting ())
    0 ≤ sub.shift ∧ sub.Definite ∧ Host.projecting.backend.Solves Problem.warmUp ∧
    points.map Vector.toArray = [#[0, 0], #[2 / 3, 2 / 3]] ∧
    points.IsChain fun x x' =>
      (∃ y, Problem.warmUp.Critical 1 x y) ∨
        Problem.warmUp.merit 1 x' < Problem.warmUp.merit 1 x := by
  intro sub o points
  have hrun :=
    (InnerLoop.falls_unless_stationary sub 1 le_rfl).2 Subproblem.warmUp_definite Host.projecting o
    Host.projecting_solves
  refine ⟨le_rfl, Subproblem.warmUp_definite, Host.projecting_solves, by decide +kernel, ?_⟩
  exact hrun.2 (.inl rfl) ⟨Vec.zero _, Vec.zero _⟩ _ (by decide +kernel)

end ComplementarityQP
