import ComplementarityQP.Proofs.Course
import ComplementarityQP.Proofs.Exact

/-! What a run says about the point that it returns. Main statement: a success is complementary
within tolerance, and every figure in the report is that of the returned point and multipliers. -/
namespace ComplementarityQP

namespace Problem
variable {K : Type}

theorem classify_ne_notSolved [Zero K] [Add K] [Sub K] [Mul K] [OfScientific K] [LT K] [LE K]
    [DecidableLT K] [DecidableLE K] [Neg K] [Special K] (p : Problem K) (tol : K) (x : Vec K p.vars)
    (y : Vec K p.duals) :
    p.classify tol x y ≠ .notSolved := by
  unfold classify Allowed.best
  split
  · simp
  · split
    · simp
    · split <;> simp

theorem complementarity_le_of_certified [Field K] [LinearOrder K] [Special K] {p : Problem K}
    {o : Options K} {x : Vec K p.vars} {y : Vec K p.duals} (h : p.certified o x y = true) :
    p.complementarity x ≤ o.complementarityTol := by
  simp only [certified, Bool.and_eq_true, Bool.not_eq_true', decide_eq_false_iff_not, not_lt] at h
  exact h.1.1.1.2

end Problem

namespace Run
variable {K σ : Type}

section Reported
variable [Zero K] [Add K] [Sub K] [Neg K] [Mul K] [LT K] [LE K] [DecidableLT K] [DecidableLE K]
  [OfScientific K] [Special K]

structure Reported (o : Options K) (p : Problem K) (sol : Solution K p.vars p.duals) : Prop where
  complementarity : sol.stats.complementarity = p.complementarity sol.x
  objective : sol.stats.objective = p.objective sol.x
  solved : sol.status = .success → sol.stationarity = p.classify o.complementarityTol sol.x sol.y ∧
    sol.stats.stationarity = (p.residual sol.x sol.y).norm
  unsolved : sol.status ≠ .success → sol.stationarity = .notSolved ∧
    sol.stats.stationarity = (p.penaltyResidual sol.stats.finalPenalty sol.x sol.y).norm

variable (host : Host K σ) (o : Options K) {p : Problem K} (e : Ending p) (pr : Progress K σ)

theorem reported_fail (h : e.status ≠ .success) : Reported o p (fail host o e pr).1 where
  complementarity := rfl
  objective := rfl
  solved hs := absurd hs h
  unsolved _ := ⟨rfl, rfl⟩

theorem reported_succeed (h : e.status = .success) : Reported o p (succeed host o e pr).1 where
  complementarity := rfl
  objective := rfl
  solved _ := ⟨rfl, rfl⟩
  unsolved hs := absurd h hs

theorem reported_finish : Reported o p (finish host o e pr).1 := by
  unfold finish
  split
  · rename_i h
    exact reported_succeed host o _ pr (by simpa [RunStatus.isSuccess] using h)
  · rename_i h
    exact reported_fail host o e pr (by simpa [RunStatus.isSuccess] using h)

end Reported

variable [Field K] [LinearOrder K] [Special K] [Root K]

section Course
variable {host : Host K σ} {o : Options K} {p : Problem K} {w : WarmStart K} {s : σ}
  {r : Solution K p.vars p.duals × σ} (course : Course host o p w s r)
include course

theorem reported_of_course : Reported o p r.1 := by
  cases course with
  | rejected => exact reported_fail host o _ _ (by simp)
  | certified => exact reported_succeed host o _ _ rfl
  | unbuildable => exact reported_fail host o _ _ (by simp)
  | unsolved => exact reported_fail host o _ _ (by simp)
  | halted => exact reported_finish host o _ _
  | settled => exact reported_finish host o _ _

/-- Both ways to success test the complementarity of the point that is returned: the certificate of
the start, and the last iteration of a level, which ends stationary. -/
theorem complementarity_le_of_success (h : r.1.status = .success) :
    p.complementarity r.1.x ≤ o.complementarityTol := by
  cases course with
  | rejected => cases h
  | certified _ _ certified => exact Problem.complementarity_le_of_certified certified
  | unbuildable => cases h
  | unsolved => cases h
  | halted visits turn =>
    rw [finish_status] at h
    cases turn_cause turn <;> cases h
  | settled visits turn =>
    rw [finish_status] at h
    rw [finish_x]
    cases turn_cause turn with
    | settled check left level verdict =>
      subst h
      obtain ⟨hstationary, hle⟩ := verdict_grounds verdict
      rwa [(InnerLoop.residuals_of_stationary level hstationary).2] at hle

end Course

/-- What a run reports is true of the point that it returns. -/
theorem report_agrees_with_point (host : Host K σ) (o : Options K) (p : Problem K) (w : WarmStart K)
    (s : σ) :
    let sol := (runFrom host o p w s).1
    sol.stats.complementarity = p.complementarity sol.x ∧
    sol.stats.objective = p.objective sol.x ∧
    (sol.status = .success →
      p.complementarity sol.x ≤ o.complementarityTol ∧
      sol.stats.stationarity = (p.residual sol.x sol.y).norm ∧
      sol.stationarity = p.classify o.complementarityTol sol.x sol.y ∧
      sol.stationarity ≠ .notSolved) ∧
    (sol.status ≠ .success →
      sol.stationarity = .notSolved ∧
      sol.stats.stationarity = (p.penaltyResidual sol.stats.finalPenalty sol.x sol.y).norm) := by
  have hcourse := runFrom_course host o p w s
  have hr := reported_of_course hcourse
  refine ⟨hr.complementarity, hr.objective, fun hs => ?_, hr.unsolved⟩
  obtain ⟨hclass, hstat⟩ := hr.solved hs
  refine ⟨complementarity_le_of_success hcourse hs, hstat, hclass, ?_⟩
  rw [hclass]
  exact p.classify_ne_notSolved _ _ _

end Run

end ComplementarityQP
