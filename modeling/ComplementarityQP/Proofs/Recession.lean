import ComplementarityQP.Proofs.Shifts
import Mathlib.Order.Filter.AtTopBot.Field

/-! Rays of the subproblems. Main statement: the test does not look at the length of a step, and a
step that it finds to be a ray, along which the Hessian vanishes and no bound is met, takes the
unshifted subproblem to minus infinity. -/
namespace ComplementarityQP
open Filter Matrix

variable {K σ : Type} {m n : Nat} [Field K]

namespace Vec

theorem get_scale (x : Vec K n) (t : K) : (x.scale t).get = t • x.get := by
  funext i
  simp [scale, Vec.get_eq_getElem]

theorem dot_scale (c x : Vec K n) (t : K) : c.dot (x.scale t) = t * c.dot x := by
  rw [dot_eq_dotProduct, get_scale, dotProduct_smul, smul_eq_mul, dot_eq_dotProduct]

theorem shift_shift_neg (c x : Vec K n) (t : K) : (c.shift (-t) x).shift t x = c := by
  apply ext_get
  intro i
  simp [get_shift]

end Vec

theorem Mat.mulVec_scale (A : Mat K m n) (x : Vec K n) (t : K) :
    A.mulVec (x.scale t) = (A.mulVec x).scale t := by
  apply Vec.ext_get
  intro i
  rw [get_mulVec, Vec.get_scale, mulVec_smul, Vec.get_scale, get_mulVec]

variable [LinearOrder K]

namespace Vec

def unit (x : Vec K n) : Vec K n := x.map (· / x.norm)

theorem unit_eq_scale (x : Vec K n) : x.unit = x.scale x.norm⁻¹ := by
  apply ext_get
  intro i
  rw [get_scale]
  simp [unit, Vec.get_eq_getElem, div_eq_inv_mul]

variable [IsStrictOrderedRing K] {x : Vec K n}

theorem norm_zero : (zero n : Vec K n).norm = 0 :=
  le_antisymm (norm_le_iff.mpr ⟨le_rfl, fun i => by rw [get_zero, abs_zero]⟩) (norm_nonneg _)

theorem eq_zero_of_norm (h : x.norm ≤ 0) : x = zero n := by
  apply ext_get
  intro i
  rw [get_zero, ← abs_nonpos_iff]
  exact (abs_get_le_norm x i).trans h

theorem norm_scale (x : Vec K n) {t : K} (ht : 0 < t) : (x.scale t).norm = t * x.norm := by
  have hentry (i : Fin n) : |(x.scale t).get i| = t * |x.get i| := by
    rw [get_scale, Pi.smul_apply, smul_eq_mul, abs_mul, abs_of_pos ht]
  apply le_antisymm
  · refine norm_le_iff.mpr ⟨mul_nonneg ht.le (norm_nonneg x), fun i => ?_⟩
    rw [hentry]
    exact mul_le_mul_of_nonneg_left (abs_get_le_norm x i) ht.le
  · rw [← le_div_iff₀' ht]
    refine norm_le_iff.mpr ⟨div_nonneg (norm_nonneg _) ht.le, fun i => ?_⟩
    rw [le_div_iff₀' ht, ← hentry]
    exact abs_get_le_norm _ i

theorem unit_scale (x : Vec K n) {t : K} (ht : 0 < t) : (x.scale t).unit = x.unit := by
  apply ext_get
  intro i
  simp only [unit_eq_scale, get_scale, norm_scale x ht, Pi.smul_apply, smul_eq_mul]
  rw [mul_inv, mul_mul_mul_comm, inv_mul_cancel₀ ht.ne', one_mul]

end Vec

/-- The quadratic term does not change along `d`, and no finite bound is met. -/
structure Problem.Recedes (p : Problem K) (d : Vec K p.vars) : Prop where
  flat : p.cost.hess.mulVec d = Vec.zero p.vars
  lower (i : Fin p.duals) : (p.stacked.lower.get i).isFinite = true →
    0 ≤ (p.stacked.coeff.mulVec d).get i
  upper (i : Fin p.duals) : (p.stacked.upper.get i).isFinite = true →
    (p.stacked.coeff.mulVec d).get i ≤ 0

def Problem.Minimised (p : Problem K) (cost : Quadratic K p.vars) : Prop :=
  ∃ z, p.stacked.Within 0 z ∧ ∀ w, p.stacked.Within 0 w → cost.value z ≤ cost.value w

namespace Subproblem
variable {p : Problem K} (s : Subproblem p) (qp : Qp K p.vars p.duals) (x : Vec K p.vars)

/-- The cost of a program at `x`, without the shift. -/
def unshifted : Quadratic K p.vars := ⟨p.cost.hess, qp.cost.lin.shift s.shift x⟩

variable {s}

theorem unshifted_penalized (hshift : 0 < s.shift) (ρ : K) :
    s.unshifted (s.penalized x ρ) x = ⟨p.cost.hess, p.lin.shift ρ (p.coupling.gradient x)⟩ := by
  simp only [unshifted, penalized, program, gradient, recentre, if_pos hshift, Vec.shift_shift_neg]

theorem unshifted_unpenalized (hshift : 0 < s.shift) :
    s.unshifted (s.unpenalized x) x = p.cost := by
  simp only [unshifted, unpenalized, program, recentre, if_pos hshift, Vec.shift_shift_neg]
  rfl

end Subproblem

variable [IsStrictOrderedRing K]

theorem Subproblem.rayTol_pos : 0 < (rayTol : K) := by norm_num [rayTol]

namespace Problem.Recedes
variable {p : Problem K} {d z : Vec K p.vars}

theorem scale (h : p.Recedes d) {t : K} (ht : 0 ≤ t) : p.Recedes (d.scale t) where
  flat := by
    apply Vec.ext_get
    intro i
    rw [Mat.mulVec_scale, h.flat, Vec.get_scale, Pi.smul_apply, Vec.get_zero, smul_zero]
  lower i hi := by
    rw [Mat.mulVec_scale, Vec.get_scale]
    exact mul_nonneg ht (h.lower i hi)
  upper i hi := by
    rw [Mat.mulVec_scale, Vec.get_scale]
    exact mul_nonpos_of_nonneg_of_nonpos ht (h.upper i hi)

/-- A point that meets the bounds keeps doing so. -/
theorem within (h : p.Recedes d) (hz : p.stacked.Within 0 z) {t : K} (ht : 0 ≤ t) :
    p.stacked.Within 0 (z.shift t d) := by
  intro i
  obtain ⟨hlower, hupper⟩ := hz i
  rw [Mat.get_mulVec_shift]
  refine ⟨fun l hl => ?_, fun u hu => ?_⟩
  · have hrise := mul_nonneg ht (h.lower i (by rw [hl]; rfl))
    linarith [hlower l hl]
  · have hfall := mul_nonpos_of_nonneg_of_nonpos ht (h.upper i (by rw [hu]; rfl))
    linarith [hupper u hu]

theorem unstopped (h : p.Recedes d) : Subproblem.unstopped p d = true := by
  have htol (i : Fin p.duals) : 0 ≤ Subproblem.rayTol * atLeast 1 (p.stacked.coeff.row i).norm := by
    rw [atLeast_eq_max]
    exact mul_nonneg Subproblem.rayTol_pos.le (zero_le_one.trans (le_max_left _ _))
  simp only [Subproblem.unstopped, List.all_eq_true, Bool.and_eq_true, Bool.or_eq_true,
    Bool.not_eq_true', decide_eq_true_eq]
  refine fun i _ => ⟨?_, ?_⟩
  · refine (Bool.eq_false_or_eq_true _).symm.imp id fun hi => ?_
    exact (neg_nonpos.mpr (htol i)).trans (h.lower i hi)
  · refine (Bool.eq_false_or_eq_true _).symm.imp id fun hi => ?_
    exact (h.upper i hi).trans (htol i)

/-- Along `d` only the linear term counts. -/
theorem value_shift (h : p.Recedes d) (c z : Vec K p.vars) (t : K) :
    Quadratic.value ⟨p.cost.hess, c⟩ (z.shift t d) = Quadratic.value ⟨p.cost.hess, c⟩ z +
      t * c.dot d := by
  have hzero : (p.cost.hess.mulVec d).get = 0 := by
    rw [h.flat]
    funext i
    exact Vec.get_zero i
  -- The Hessian is symmetric, so its product with `z` has no part along `d` either.
  have hslope : d.dot (Quadratic.gradient ⟨p.cost.hess, c⟩ z) = c.dot d := by
    rw [Mat.get_mulVec] at hzero
    rw [Quadratic.gradient, Vec.dot_eq_dotProduct, Vec.get_add, dotProduct_add, Mat.get_mulVec,
      dotProduct_mulVec, ← mulVec_transpose, p.isSymm_cost.eq, hzero, zero_dotProduct, zero_add,
      dotProduct_comm, Vec.dot_eq_dotProduct]
  rw [Quadratic.value_shift ⟨p.cost.hess, c⟩ p.isSymm_cost, hslope, Vec.dot_eq_dotProduct d, hzero,
    dotProduct_zero, mul_zero, add_zero]

variable {c : Vec K p.vars}

theorem tendsto_value (h : p.Recedes d) (hfalls : c.dot d < 0) (z : Vec K p.vars) :
    Tendsto (fun t => Quadratic.value ⟨p.cost.hess, c⟩ (z.shift t d)) atTop atBot := by
  simp only [h.value_shift]
  exact tendsto_atBot_add_const_left _ _ (tendsto_id.atTop_mul_const_of_neg hfalls)

theorem not_minimised (h : p.Recedes d) (hfalls : c.dot d < 0) : ¬p.Minimised ⟨p.cost.hess, c⟩ := by
  rintro ⟨z, hz, hleast⟩
  have hstep := hleast _ (h.within hz zero_le_one)
  rw [h.value_shift] at hstep
  linarith

end Problem.Recedes

variable [Special K] [Exact K]

namespace Subproblem
variable {p : Problem K} {s : Subproblem p} {qp : Qp K p.vars p.duals} {x step : Vec K p.vars}

omit [IsStrictOrderedRing K] in
/-- The test looks at the step at size 1. -/
theorem isRay_iff (hshift : 0 < s.shift) : s.isRay qp x step = true ↔
    0 < step.norm ∧
    ((s.hess.mulVec step.unit).shift (-s.shift) step.unit).norm ≤
      rayTol * atLeast 1 s.hess.diagonalNorm ∧
    (s.unshifted qp x).lin.dot step.unit < -(rayTol * atLeast 1 (s.unshifted qp x).lin.norm) ∧
    unstopped p step.unit = true := by
  have hguard : (s.shift == 0 || decide (step.norm ≤ 0) || !isFinite step.norm) =
      decide (step.norm ≤ 0) := by
    rw [beq_eq_false_iff_ne.mpr hshift.ne', Exact.isFinite, Bool.false_or, Bool.not_true,
      Bool.or_false]
  unfold isRay
  simp only [hguard, decide_eq_true_eq]
  simp only [Bool.if_false_left, Bool.and_eq_true, Bool.not_eq_true', decide_eq_false_iff_not,
    not_le, not_lt]
  rfl

theorem isRay_scale (hshift : 0 < s.shift) {t : K} (ht : 0 < t) :
    s.isRay qp x (step.scale t) = s.isRay qp x step := by
  rw [Bool.eq_iff_iff, isRay_iff hshift, isRay_iff hshift, Vec.norm_scale step ht,
    Vec.unit_scale step ht, mul_pos_iff_of_pos_left ht]

/-- Where only the linear term counts, the test compares it with its tolerance. -/
theorem isRay_iff_of_recedes (hshift : 0 < s.shift) (h : p.Recedes step) :
    s.isRay qp x step = true ↔
    (s.unshifted qp x).lin.dot step <
      -(rayTol * max 1 (s.unshifted qp x).lin.norm * step.norm) := by
  have hinv : 0 ≤ step.norm⁻¹ := inv_nonneg.mpr (Vec.norm_nonneg step)
  have hunit : p.Recedes step.unit := by
    rw [Vec.unit_eq_scale]
    exact h.scale hinv
  have hflat : ((s.hess.mulVec step.unit).shift (-s.shift) step.unit).norm ≤
      rayTol * atLeast 1 s.hess.diagonalNorm := by
    have hzero : (s.hess.mulVec step.unit).shift (-s.shift) step.unit = Vec.zero p.vars := by
      apply Vec.ext_get
      intro i
      simp [Vec.get_shift, get_hess_mulVec, hunit.flat]
    rw [hzero, Vec.norm_zero, atLeast_eq_max]
    exact mul_nonneg rayTol_pos.le (zero_le_one.trans (le_max_left _ _))
  rw [isRay_iff hshift, atLeast_eq_max (1 : K) (s.unshifted qp x).lin.norm]
  obtain hpos | hzero := (Vec.norm_nonneg step).lt_or_eq
  · rw [and_iff_right hpos, and_iff_right hflat, and_iff_left hunit.unstopped, Vec.unit_eq_scale,
      Vec.dot_scale, inv_mul_lt_iff₀ hpos, mul_neg, mul_comm step.norm]
  · -- A step of size 0 is zero, and nothing falls along it.
    have hstep : step = Vec.zero p.vars := Vec.eq_zero_of_norm hzero.ge
    rw [← hzero, mul_zero, neg_zero, hstep]
    simp [Vec.dot_eq_dotProduct, dotProduct]

/-- A ray that the test finds in a direction of recession is one of the cost without the shift. -/
theorem falls_of_isRay (hshift : 0 < s.shift) (h : p.Recedes step)
    (hray : s.isRay qp x step = true) :
    (s.unshifted qp x).lin.dot step < 0 := by
  have hfalls := (isRay_iff_of_recedes hshift h).mp hray
  have htol : 0 ≤ rayTol * max 1 (s.unshifted qp x).lin.norm :=
    mul_nonneg rayTol_pos.le (zero_le_one.trans (le_max_left _ _))
  exact hfalls.trans_le (neg_nonpos.mpr (mul_nonneg htol (Vec.norm_nonneg step)))

omit [IsStrictOrderedRing K] [Exact K] in
/-- A solution is refused as unbounded where its step is found to be a ray. -/
theorem refused_iff_isRay {host : Host K σ} {pr : Progress K σ} {y : Vec K p.duals}
    {a : Answer K p.vars p.duals}
    (hanswer : (host.backend.solve qp (some ⟨x.toArray, y.toArray⟩) pr.state).1 = .ok a)
    (hsolved : a.status = .solved) :
    (pr.solveAt host s qp x y).1 = .error (some .unbounded) ↔ s.isRay qp x (a.x - x) = true := by
  unfold Progress.solveAt Progress.solveQp
  rcases hreply : host.backend.solve qp (some ⟨x.toArray, y.toArray⟩) pr.state with ⟨reply, state⟩
  obtain rfl : reply = .ok a := by rw [← hanswer, hreply]
  cases hray : s.isRay qp x (a.x - x) with
  | true => simp [hsolved, hray, QpStatus.isSolved]
  | false => simp [hsolved, hray, QpStatus.isSolved]

variable (s qp x)

/-- The ray test of a shifted subproblem at `x`, where `f` is its cost without the shift: `½ wᵀ Q w
+ cᵀ w`. The length of the step does not matter to it. If `Q` vanishes along a step that meets no
finite bound, then the test says whether `c` falls along the step by more than its tolerance. What
it finds there is a ray: from every point within the finite bounds it stays within them, with `f`
going to minus infinity. So a solution that is refused for such a step is one of a subproblem
without a minimum. -/
theorem ray_has_no_minimum (hshift : 0 < s.shift) :
    let f := s.unshifted qp x
    ((∀ ρ, qp = s.penalized x ρ → f = ⟨p.cost.hess, p.lin.shift ρ (p.coupling.gradient x)⟩) ∧
      (qp = s.unpenalized x → f = p.cost)) ∧
    (∀ step t, 0 < t → s.isRay qp x (step.scale t) = s.isRay qp x step) ∧
    (∀ step, p.Recedes step →
      (s.isRay qp x step = true ↔ f.lin.dot step < -(1e-9 * max 1 f.lin.norm * step.norm)) ∧
      (s.isRay qp x step = true → ¬p.Minimised f ∧ ∀ z, p.stacked.Within 0 z →
        (∀ t, 0 ≤ t → p.stacked.Within 0 (z.shift t step)) ∧
        Tendsto (fun t => f.value (z.shift t step)) atTop atBot)) ∧
    ∀ (host : Host K σ) (pr : Progress K σ) y a,
      (host.backend.solve qp (some ⟨x.toArray, y.toArray⟩) pr.state).1 = .ok a →
      a.status = .solved →
      p.Recedes (a.x - x) → (pr.solveAt host s qp x y).1 = .error (some .unbounded) →
      ¬p.Minimised f := by
  intro f
  refine ⟨⟨?_, ?_⟩, fun step t ht => isRay_scale hshift ht,
    fun step h => ⟨isRay_iff_of_recedes hshift h, ?_⟩, ?_⟩
  · rintro ρ rfl
    exact unshifted_penalized x hshift ρ
  · rintro rfl
    exact unshifted_unpenalized x hshift
  · intro hray
    have hfalls := falls_of_isRay hshift h hray
    exact ⟨h.not_minimised hfalls,
      fun z hz => ⟨fun t ht => h.within hz ht, h.tendsto_value hfalls z⟩⟩
  · intro host pr y a hanswer hsolved h hunbounded
    exact h.not_minimised
      (falls_of_isRay hshift h ((refused_iff_isRay hanswer hsolved).mp hunbounded))

/-- In the valley the second variable can grow for ever. A solver that takes the shift for curvature
is refused. -/
theorem ray_has_no_minimum_valley :
    let s : Subproblem Problem.valley := ⟨1⟩
    let x : Vec ℚ Problem.valley.vars := #v[0, 0]
    let step : Vec ℚ Problem.valley.vars := #v[0, 2]
    let host := Host.answering [some ⟨#[0, 2], #[0, 0], .solved, 1⟩]
    0 < s.shift ∧ Problem.valley.Recedes step ∧
    ((Progress.start host 0).solveAt host s (s.unpenalized x) x #v[0, 0]).1 =
      .error (some .unbounded) ∧
    ¬Problem.valley.Minimised Problem.valley.cost ∧
    Tendsto (fun t => Problem.valley.cost.value (x.shift t step)) atTop atBot := by
  intro s x step host
  have hshift : 0 < s.shift := one_pos
  have hrecedes : Problem.valley.Recedes step :=
    ⟨by decide +kernel, by decide +kernel, by decide +kernel⟩
  have hray : s.isRay (s.unpenalized x) x step = true := by decide +kernel
  have hwithin : Problem.valley.stacked.Within 0 x :=
    ((Rows.violation_le_iff _).mp (by decide +kernel)).2
  obtain ⟨a, hanswer⟩ : ∃ a,
    (host.backend.solve (s.unpenalized x) (some ⟨x.toArray, #[0, 0]⟩) 0).1 = .ok a := ⟨_, rfl⟩
  obtain ⟨hx, -, hsolved⟩ :=
    Backend.Line.answer_ok ((Host.answering_solve _ _ _).symm.trans hanswer)
  have hpoint : a.x = step := Vector.toArray_inj.mp hx
  have hstep : a.x - x = step := by
    rw [hpoint]
    exact Vector.toArray_inj.mp (by decide +kernel)
  rw [← hstep] at hrecedes hray ⊢
  obtain ⟨⟨-, hcost⟩, -, hrays, hrefused⟩ :=
    ray_has_no_minimum (σ := Nat) s (s.unpenalized x) x hshift
  have hreply : ((Progress.start host 0).solveAt host s (s.unpenalized x) x #v[0, 0]).1 =
      .error (some .unbounded) :=
    (refused_iff_isRay hanswer hsolved).mpr hray
  have hnone := hrefused host (Progress.start host 0) #v[0, 0] a hanswer hsolved hrecedes hreply
  have hfalls := (((hrays _ hrecedes).2 hray).2 x hwithin).2
  rw [hcost rfl] at hfalls hnone
  exact ⟨hshift, hrecedes, hreply, hnone, hfalls⟩

end Subproblem
end ComplementarityQP
