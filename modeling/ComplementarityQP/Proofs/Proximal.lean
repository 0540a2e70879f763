import ComplementarityQP.Proofs.Descent

/-! The diagonal shift as a proximal term. Main statement: it changes neither the fixed points of
the iteration nor the residuals there, so a full step that is short ends at a point that is nearly
stationary. -/
namespace ComplementarityQP
open Matrix

variable {K σ : Type} [Field K] [LinearOrder K]

section Residual
variable {p : Problem K} {ρ : K} {x z : Vec K p.vars} {y : Vec K p.duals}

omit [LinearOrder K] in
theorem Quadratic.get_gradient_shift {n : Nat} (q : Quadratic K n) (x d : Vec K n) (t : K) :
    (q.gradient (x.shift t d)).get = (q.gradient x).get + t • (q.hess.mulVec d).get := by
  rw [gradient, gradient, Vec.get_add, Vec.get_add, Mat.get_mulVec, Mat.get_mulVec, Mat.get_mulVec,
    Vec.get_shift, mulVec_add, mulVec_smul]
  abel

omit [LinearOrder K] in
/-- The residual of the penalty problem along a line, with fixed multipliers. -/
theorem Problem.get_penaltyResidual_shift (d : Vec K p.vars) (t : K) :
    (p.penaltyResidual ρ (x.shift t d) y).get = (p.penaltyResidual ρ x y).get +
      t • ((p.cost.hess.mulVec d).get + ρ • (p.coupling.hess.mulVec d).get) := by
  simp only [penaltyResidual, residual, Vec.get_shift, Vec.get_sub, Quadratic.get_gradient_shift,
    smul_add, smul_comm t ρ]
  abel

/-- The residual after a part of the way to a solution of the subproblem. -/
theorem Subproblem.get_penaltyResidual_step {s : Subproblem p} (hshift : 0 ≤ s.shift)
    (h : (s.penalized x ρ).cost.gradient z = p.stacked.coeff.transposeMulVec y) (α : K) :
    (p.penaltyResidual ρ (x.shift α (z - x)) y).get =
      (α * ρ) • (p.coupling.hess.mulVec (z - x)).get -
      (1 - α) • (p.cost.hess.mulVec (z - x)).get - s.shift • (z - x).get := by
  rw [Problem.get_penaltyResidual_shift, get_penaltyResidual_of_stationary hshift h,
    get_hess_mulVec, smul_add, smul_smul, sub_smul, one_smul]
  abel

variable [IsStrictOrderedRing K]

/-- After all of the way only the coupling and the shift are left. -/
theorem Subproblem.norm_penaltyResidual_le {s : Subproblem p} (hshift : 0 ≤ s.shift)
    (h : (s.penalized x ρ).cost.gradient z = p.stacked.coeff.transposeMulVec y) :
    (p.penaltyResidual ρ (x.shift 1 (z - x)) y).norm ≤
      (|ρ| * p.coupling.hess.rowNorm + s.shift) * (z - x).norm := by
  have hcoupling : 0 ≤ |ρ| * p.coupling.hess.rowNorm :=
    mul_nonneg (abs_nonneg ρ) p.coupling.hess.rowNorm_bounds.1
  refine Vec.norm_le_iff.mpr ⟨mul_nonneg (add_nonneg hcoupling hshift) (Vec.norm_nonneg _),
    fun i => ?_⟩
  have hentry : (p.penaltyResidual ρ (x.shift 1 (z - x)) y).get i =
      ρ * (p.coupling.hess.mulVec (z - x)).get i - s.shift * (z - x).get i := by
    rw [get_penaltyResidual_step hshift h, one_mul, sub_self, zero_smul, sub_zero]
    rfl
  have hmulVec := p.coupling.hess.abs_mulVec_le (Vec.norm_nonneg (z - x)) (Vec.abs_get_le_norm _) i
  calc |(p.penaltyResidual ρ (x.shift 1 (z - x)) y).get i|
      ≤ |ρ * (p.coupling.hess.mulVec (z - x)).get i| + |s.shift * (z - x).get i| := by
        rw [hentry]
        exact abs_sub _ _
    _ = |ρ| * |(p.coupling.hess.mulVec (z - x)).get i| + s.shift * |(z - x).get i| := by
        rw [abs_mul, abs_mul, abs_of_nonneg hshift]
    _ ≤ |ρ| * ((z - x).norm * p.coupling.hess.rowNorm) + s.shift * (z - x).norm :=
        add_le_add (mul_le_mul_of_nonneg_left hmulVec (abs_nonneg ρ))
          (mul_le_mul_of_nonneg_left (Vec.abs_get_le_norm _ i) hshift)
    _ = (|ρ| * p.coupling.hess.rowNorm + s.shift) * (z - x).norm := by ring

end Residual

namespace InnerLoop
variable [Special K] {p : Problem K} {host : Host K σ} {o : Options K} {sub : Subproblem p} {ρ : K}
  {it : Iterate p} {pr pr' : Progress K σ} {l : InnerLoop p} {total : Nat}
  {a : Answer K p.vars p.duals} {r : InnerResult p}

variable (host o sub ρ it pr l) in
/-- The loop from `it` ends as stationary in the iteration from `l`, by a step towards the answer
`a`. The iteration begins when `total` subproblems have been solved. -/
inductive Settles : Nat → Answer K p.vars p.duals → InnerResult p → Prop
  | mk {pr₁ pr₂ pr₃ a l' pr'} (reach : Reaches host o sub ρ (start p ρ it) pr l pr₁)
      (check : pr₁.shouldAbort host o = (false, pr₂))
      (solve : pr₂.solveAt host sub (sub.penalized (l.moved o ρ pr₂.total).point.x ρ)
        (l.moved o ρ pr₂.total).point.x l.point.y = (.ok a, pr₃))
      (iterate : l.iterate host o sub ρ pr₁ = (some .stationary, l', pr')) :
      Settles pr₂.total a (l'.result .stationary)

theorem settles_of_stationary (h : run host o sub ρ it pr = (r, pr'))
    (hst : r.status = .stationary) :
    ∃ l total a, Settles host o sub ρ it pr l total a r := by
  obtain ⟨last, pr₁, l', hreach, hiter, hr⟩ := ends_by_status h (by simp [hst])
  rw [hst] at hiter hr
  rw [hr]
  cases iterate_outcome hiter with
  | stepped check solve report exit => exact ⟨last, _, _, .mk hreach check solve hiter⟩

/-- What is returned is the point after the step, with its residual, and one of the two tests has
ended the loop. -/
theorem Settles.landing (h : Settles host o sub ρ it pr l total a r) :
    r.point = l.landing o ρ total a ∧ r.stationarity = p.stationarity ρ (l.landing o ρ total a) ∧
      (r.stationarity ≤ o.stationarityTol ∨ l.stepNorm o ρ total a ≤ o.stepTol) := by
  obtain ⟨reach, check, solve, iterate⟩ := h
  have hexit := exit_of_solved check solve iterate
  obtain ⟨window, rfl⟩ := exit_loop hexit
  exact ⟨rfl, rfl, (exit_stationary_iff hexit).mp rfl⟩

theorem Settles.stationarity_le [IsStrictOrderedRing K] (h : Settles host o sub ρ it pr l total a r)
    (hshift : 0 ≤ sub.shift) (hfull : l.stepLength o ρ total a = 1)
    (hfits : (sub.penalized (l.moved o ρ total).point.x ρ).cost.gradient a.x =
      p.stacked.coeff.transposeMulVec a.y) :
    r.stationarity ≤ (|ρ| * p.coupling.hess.rowNorm + sub.shift) * l.stepNorm o ρ total a := by
  have hle := Subproblem.norm_penaltyResidual_le hshift hfits
  rw [h.landing.2.1, stepNorm, Problem.stationarity, InnerLoop.landing, hfull, one_mul]
  exact hle

variable (sub ρ)

/-- A shift `δ ≥ 0` of the subproblems. At the point of linearization `x` their residual is that of
the penalty problem, so `x` with multipliers `y` is a solution if and only if it is stationary for
the penalty problem. If `y` fits another point `z`, then the residual after the part `α` of the way
`d = z - x` is `α ρ C d - (1 - α) Q d - δ d`. So where a loop ends by a full step, the stationarity
is at most `|ρ| ‖C‖ + δ` times the size of the step, whichever test has ended it. Penalties are not
negative, so there `|ρ|` is `ρ`. -/
theorem shift_keeps_residuals [IsStrictOrderedRing K] (hshift : 0 ≤ sub.shift) :
    (∀ x y, let qp := sub.penalized x ρ
      qp.cost.gradient x - qp.rows.coeff.transposeMulVec y = p.penaltyResidual ρ x y ∧
      (qp.Optimal x y ↔ p.Critical ρ x y ∧ p.stacked.Holds x) ∧
      ∀ z, qp.cost.gradient z = qp.rows.coeff.transposeMulVec y → ∀ α,
        let d := z - x
        (p.penaltyResidual ρ (x.shift α d) y).get = (α * ρ) • (p.coupling.hess.mulVec d).get -
          (1 - α) • (p.cost.hess.mulVec d).get - sub.shift • d.get) ∧
    ∀ (host : Host K σ) (o : Options K) it pr,
      let r := (run host o sub ρ it pr).1
      (r.status = .stationary → ∃ l total a, Settles host o sub ρ it pr l total a r) ∧
      ∀ l total a, Settles host o sub ρ it pr l total a r →
        r.point = l.landing o ρ total a ∧
        (r.stationarity ≤ o.stationarityTol ∨ l.stepNorm o ρ total a ≤ o.stepTol) ∧
        (l.stepLength o ρ total a = 1 →
          (sub.penalized (l.moved o ρ total).point.x ρ).cost.gradient a.x =
            p.stacked.coeff.transposeMulVec a.y →
          r.stationarity ≤
            (|ρ| * p.coupling.hess.rowNorm + sub.shift) * l.stepNorm o ρ total a) := by
  refine ⟨fun x y => ⟨?_, ?_, fun z hz α => ?_⟩,
    fun host o it pr => ⟨?_, fun l total a h => ⟨?_, ?_, ?_⟩⟩⟩
  · exact Subproblem.penalized_residual hshift
  · exact Subproblem.optimal_iff_critical hshift
  · exact Subproblem.get_penaltyResidual_step hshift hz α
  · exact settles_of_stationary rfl
  · exact h.landing.1
  · exact h.landing.2.2
  · exact h.stationarity_le hshift

end InnerLoop

def Problem.gentle : Problem ℚ := { warmUp with quad := Mat.ofFn fun i j => if i = j then 1 else 0 }

/-- A full step of length `5/8` meets a coarse tolerance. The stationarity after it is below the
bound, though not zero. -/
theorem InnerLoop.shift_keeps_residuals_gentle :
    let sub : Subproblem Problem.gentle := ⟨1⟩
    let o : Options ℚ := { Options.default with nudge := false, stepTol := 5 / 8 }
    let it : Iterate Problem.gentle := ⟨#v[1, 1 / 4], #v[0, 0]⟩
    let r := (run Host.projecting o sub (1 / 2) it (.start Host.projecting ())).1
    0 ≤ sub.shift ∧ r.status = .stationary ∧ o.stationarityTol < r.stationarity ∧
    r.stationarity ≤ (|1 / 2| * Problem.gentle.coupling.hess.rowNorm + sub.shift) * (5 / 8) := by
  intro sub o it r
  let l := start Problem.gentle (1 / 2) it
  let pr := Progress.start Host.projecting ()
  let x := (l.moved o (1 / 2) pr.total).point.x
  obtain ⟨⟨l', pr'⟩, hiterate⟩ : ∃ next, l.iterate Host.projecting o sub (1 / 2) pr =
    (some .stationary, next) :=
    ⟨_, Prod.ext (by decide +kernel) rfl⟩
  have hr : r = l'.result .stationary := by
    change (loop Host.projecting o sub (1 / 2) (o.maxInner - 1) l pr).1 = _
    rw [loop, hiterate]
  obtain ⟨a, hsolve, hx, hy⟩ : ∃ a,
    (pr.solveAt Host.projecting sub (sub.penalized x (1 / 2)) x l.point.y).1 = .ok a ∧
      a.x.toArray = #[23 / 16, 7 / 8] ∧ a.y.toArray = #[0, 0] :=
    ⟨_, Progress.solveAt_eq_ok_iff.mpr
      ⟨rfl, by decide +kernel, by decide +kernel⟩, by decide +kernel, by decide +kernel⟩
  have hcheck : pr.shouldAbort Host.projecting o = (false, pr) := rfl
  have hsettles : Settles Host.projecting o sub (1 / 2) it pr l pr.total a r := by
    rw [hr]
    exact .mk .here hcheck (Prod.ext hsolve rfl) hiterate
  obtain ⟨-, -, hbound⟩ :=
    ((shift_keeps_residuals sub (1 / 2) zero_le_one).2 _ _ _ _).2 _ _ _ hsettles
  have hpoint : a.x = #v[23 / 16, 7 / 8] := Vector.toArray_inj.mp hx
  have hmultipliers : a.y = #v[0, 0] := Vector.toArray_inj.mp hy
  rw [stepNorm, stepLength, direction, hpoint, hmultipliers] at hbound
  refine ⟨zero_le_one, by decide +kernel, by decide +kernel, ?_⟩
  exact (hbound (by decide +kernel) (by decide +kernel)).trans_eq (by decide +kernel)

end ComplementarityQP
