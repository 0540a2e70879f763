import ComplementarityQP.Proofs.Diagnostics
import ComplementarityQP.Proofs.Report
import ComplementarityQP.Proofs.Rows
import Mathlib.Tactic.Abel

/-! The two forms of the multipliers. Main statement: turning those of the penalty problem into
those of the problem keeps the residual, so a success reports the stationarity that its last inner
iteration has recorded. -/
namespace ComplementarityQP
open Matrix

variable {K σ : Type}

theorem Vec.get_neg {n : Nat} [Neg K] (x : Vec K n) : (-x).get = -x.get := by
  funext i
  simp [Vec.get_eq_getElem]

theorem Mat.transposeMulVec_stack {m n q : Nat} [NonUnitalNonAssocSemiring K] (A : Mat K m n)
    (B : Mat K q n) (u : Vec K m) (v : Vec K q) :
    ((A.stack B).transposeMulVec (u.join v)).get = A.toMatrixᵀ *ᵥ u.get + B.toMatrixᵀ *ᵥ v.get := by
  funext j
  simp [transposeMulVec, sum_eq_sum, Fin.sum_univ_add, stack, Matrix.mulVec, dotProduct]

namespace Problem

theorem join_parts {r k : Nat} (y : Vec K (r + k + k)) :
    Vec.join (Vec.join (Vector.ofFn (generalPart y)) (Vector.ofFn (leftPart y)))
      (Vector.ofFn (rightPart y)) = y := by
  apply Vec.ext_get
  refine forall_parts (fun i => ?_) (fun i => ?_) (fun i => ?_)
  · simp [generalPart]
  · simp [leftPart]
  · simp [rightPart]

variable [Field K] (p : Problem K)

theorem get_coupling_gradient (x : Vec K p.vars) :
    (p.coupling.gradient x).get =
      p.left.coeff.toMatrixᵀ *ᵥ (p.right.gap x).get +
        p.right.coeff.toMatrixᵀ *ᵥ (p.left.gap x).get := by
  -- Each side is weighted with the gap of the other, so that the bounds enter crosswise.
  simp only [Quadratic.gradient, coupling, Side.gap, Vec.get_add, Vec.get_neg, Vec.get_sub,
    Mat.get_mulVec, Mat.get_transposeMulVec, Mat.toMatrix_add, Mat.toMatrix_mul,
    Mat.toMatrix_transpose, add_mulVec, mulVec_sub, mulVec_mulVec]
  abel

theorem get_stacked_transposeMulVec (u : Vec K p.rows) (v w : Vec K p.pairs) :
    (p.stacked.coeff.transposeMulVec ((u.join v).join w)).get =
      p.general.coeff.toMatrixᵀ *ᵥ u.get + p.left.coeff.toMatrixᵀ *ᵥ v.get +
        p.right.coeff.toMatrixᵀ *ᵥ w.get := by
  change (((p.general.coeff.stack p.left.coeff).stack p.right.coeff).transposeMulVec
    ((u.join v).join w)).get = _
  rw [Mat.transposeMulVec_stack, ← Mat.get_transposeMulVec, Mat.transposeMulVec_stack]

variable (ρ : K) (x : Vec K p.vars) (y : Vec K p.duals)

theorem get_stacked_transformDuals :
    (p.stacked.coeff.transposeMulVec (p.transformDuals ρ x y)).get =
      (p.stacked.coeff.transposeMulVec y).get - ρ • (p.coupling.gradient x).get := by
  have hleft : (Vector.ofFn fun i => leftPart y i - ρ * (p.right.gap x).get i : Vec K p.pairs).get =
      (Vector.ofFn (leftPart y) : Vec K p.pairs).get - ρ • (p.right.gap x).get := by
    funext i
    simp
  have hright :
    (Vector.ofFn fun i => rightPart y i - ρ * (p.left.gap x).get i : Vec K p.pairs).get =
      (Vector.ofFn (rightPart y) : Vec K p.pairs).get - ρ • (p.left.gap x).get := by
    funext i
    simp
  conv_rhs => rw [← join_parts y]
  rw [transformDuals, get_stacked_transposeMulVec, get_stacked_transposeMulVec,
    get_coupling_gradient, hleft, hright, mulVec_sub, mulVec_sub, mulVec_smul, mulVec_smul,
    smul_add]
  abel

/-- The multipliers of the problem leave the residual that those of the penalty problem leave. -/
theorem residual_transformDuals :
    p.residual x (p.transformDuals ρ x y) = p.penaltyResidual ρ x y := by
  apply Vec.ext_get
  intro j
  simp only [penaltyResidual, residual, Vec.get_shift, Vec.get_sub, get_stacked_transformDuals,
    Pi.add_apply, Pi.sub_apply]
  abel

theorem generalPart_transformDuals (i : Fin p.rows) :
    generalPart (p.transformDuals ρ x y) i = generalPart y i := by
  simp [generalPart, transformDuals]

end Problem

def lastInner (records : List (Record K)) : Option (Record K) :=
  (records.filter fun r => r.phase = .inner).getLast?

theorem lastInner_append {before : List (Record K)} {r last : Record K} (hr : r.phase = .inner)
    (hlast : last.phase ≠ .inner) : lastInner (before ++ [r] ++ [last]) = some r := by
  simp [lastInner, hr, hlast]

variable [Field K] [LinearOrder K] [Special K] {host : Host K σ} {o : Options K} {p : Problem K}

/-- A level that ends stationary has just recorded its end. -/
theorem InnerLoop.trace_of_stationary {sub : Subproblem p} {ρ : K} {it : Iterate p}
    {pr pr' : Progress K σ} {r : InnerResult p} (hkeep : o.storeSteps = true)
    (h : run host o sub ρ it pr = (r, pr')) (hst : r.status = .stationary) :
    ∃ before last, pr'.trace = before ++ [last] ∧ last.phase = .inner ∧
      last.stationarity = p.stationarity ρ r.point := by
  obtain ⟨l, pr₁, l', -, hiter, hr⟩ := ends_by_status h (by simp [hst])
  rw [hst] at hiter
  cases iterate_outcome hiter with
  | @stepped pr₂ pr₃ _ a _ _ check solve report exit =>
    refine ⟨pr₃.trace, l.record o ρ pr₂.total a pr₃.outer (pr₃.qpIterations - pr₂.qpIterations), ?_,
      rfl, ?_⟩
    · rw [report, Progress.emit, hkeep]
      rfl
    · obtain ⟨window, rfl⟩ := exit_loop exit
      rw [hr]
      rfl

namespace Run

theorem finish_trace (hkeep : o.storeSteps = true) (e : Ending p) (pr : Progress K σ) :
    ∃ last, (finish host o e pr).1.stats.trace = pr.trace ++ [last] ∧ last.phase = .terminated := by
  unfold finish
  split
  · simp [succeed, close, Progress.emit, Progress.elapsed, hkeep, outerRecord]
  · simp [fail, close, Progress.emit, Progress.elapsed, hkeep, outerRecord]

theorem finish_stationarity (it : Iterate p) (ρ shift : K) (pr : Progress K σ) :
    (finish host o ⟨it, ρ, shift, .success⟩ pr).1.stats.stationarity = p.stationarity ρ it := by
  change (p.residual it.x (p.transformDuals ρ it.x it.y)).norm =
    (p.penaltyResidual ρ it.x it.y).norm
  rw [Problem.residual_transformDuals]

variable [Root K] {w : WarmStart K} {s : σ}

theorem lastInner_of_course {r : Solution K p.vars p.duals × σ} (hkeep : o.storeSteps = true)
    (course : Course host o p w s r) (hsuccess : r.1.status = .success) (hcert : ¬w.Certified o p) :
    ∃ last, lastInner r.1.stats.trace = some last ∧ r.1.stats.stationarity = last.stationarity := by
  obtain ⟨sub, h, n, pr₁, res, pr, -, -, -, level, hstationary, rfl⟩ :=
    level_of_success course hsuccess hcert
  obtain ⟨before, last, htrace, hphase, hlast⟩ :=
    InnerLoop.trace_of_stationary hkeep level hstationary
  obtain ⟨final, hfinal, hterminated⟩ :=
    finish_trace hkeep ⟨res.point, h.penalty, sub.shift, .success⟩ pr
  -- Only the record of the end comes after that of the last iteration.
  refine ⟨last, ?_, ?_⟩
  · rw [hfinal, htrace]
    exact lastInner_append hphase (by simp [hterminated])
  · rw [finish_stationarity, hlast]

section Records
variable (host : Host K σ) (o : Options K) (p : Problem K) (w : WarmStart K) (s : σ)

/-- The records that a run makes, whether its options keep them or not. -/
def records : List (Record K) := (runFrom host { o with storeSteps := true } p w s).1.stats.trace

/-- Keeping the records changes nothing else. -/
theorem untraced_recording :
    (runFrom host { o with storeSteps := true } p w s).1.untraced =
      (runFrom host o p w s).1.untraced := by
  have hkept : runFrom host (Options.unkept { o with storeSteps := true } o.verbosity) p w s =
      (runFrom host { o with storeSteps := true } p w s).map Solution.untraced id :=
    runFrom_unkept (fun _ _ => rfl) p w s
  have hgiven : runFrom host (o.unkept o.verbosity) p w s =
      (runFrom host o p w s).map Solution.untraced id :=
    runFrom_unkept (fun _ _ => rfl) p w s
  exact congrArg Prod.fst (hkept.symm.trans hgiven)

/-- The multipliers of the problem leave the residual of those of the penalty problem, and are the
same on the general rows. So a run that gets to its success through the loops reports the
stationarity of its last inner record. -/
theorem stationarity_of_last_inner_record :
    (∀ ρ x y, p.residual x (p.transformDuals ρ x y) = p.penaltyResidual ρ x y ∧
      ∀ i, Problem.generalPart (p.transformDuals ρ x y) i = Problem.generalPart y i) ∧
    let sol := (runFrom host o p w s).1
    (sol.status = .success → ¬w.Certified o p →
      ∃ r, lastInner (records host o p w s) = some r ∧
      sol.stats.stationarity = r.stationarity) := by
  refine ⟨fun ρ x y => ⟨p.residual_transformDuals ρ x y, p.generalPart_transformDuals ρ x y⟩, ?_⟩
  intro sol hsuccess hcert
  have hsame := untraced_recording host o p w s
  have hstatus := congrArg Solution.status hsame
  have hstationarity := congrArg (fun sol => sol.stats.stationarity) hsame
  obtain ⟨r, hlast, hr⟩ :=
    lastInner_of_course rfl (runFrom_course host { o with storeSteps := true } p w s)
    (hstatus.trans hsuccess) hcert
  exact ⟨r, hlast, hstationarity.symm.trans hr⟩

end Records

/-- A solver that knows a solution of the warm-up problem leads to it through the loops. -/
theorem stationarity_of_last_inner_record_warmUp :
    let host := Host.answering [some ⟨#[1, 0], #[0, -2], .solved, 1⟩]
    let sol := (runFrom host Options.default Problem.warmUp ⟨none, none, none⟩ 0).1
    sol.status = .success ∧
    ∃ r, lastInner (records host Options.default Problem.warmUp ⟨none, none, none⟩ 0) = some r ∧
      sol.stats.stationarity = r.stationarity := by
  have hstatus :
    (runFrom (.answering [some ⟨#[1, 0], #[0, -2], .solved, 1⟩]) Options.default Problem.warmUp
      ⟨none, none, none⟩ 0).1.status = .success := by decide +kernel
  have hfresh : ¬WarmStart.Certified Options.default Problem.warmUp ⟨none, none, none⟩ := by
    rintro ⟨x, y, hx, -⟩
    cases hx
  obtain ⟨-, hlast⟩ :=
    stationarity_of_last_inner_record (.answering [some ⟨#[1, 0], #[0, -2], .solved, 1⟩])
    Options.default Problem.warmUp ⟨none, none, none⟩ 0
  exact ⟨hstatus, hlast hstatus hfresh⟩

end Run

end ComplementarityQP
