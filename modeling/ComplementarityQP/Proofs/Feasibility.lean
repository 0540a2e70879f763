import ComplementarityQP.Proofs.Course
import ComplementarityQP.Proofs.Rows

/-! The violation of the rows along a run. Main statement: with a solver whose solutions are
feasible, only the nudge can leave the rows, by a bounded amount, and a full step comes back to
them. -/
namespace ComplementarityQP
open Matrix

variable {K σ : Type} [Field K] [LinearOrder K]

/-- The largest sum of the magnitudes of a row. -/
def Mat.rowNorm {m n : Nat} (A : Mat K m n) : K := Fin.foldl m (fun w i => max w (∑ j, |A i j|)) 0

def Backend.Feasible (b : Backend K σ) (p : Problem K) : Prop :=
  ∀ (qp : Qp K p.vars p.duals) hint s a, qp.rows = p.stacked → (b.solve qp hint s).1 = .ok a →
    a.status = .solved →
    p.stacked.Holds a.x

theorem Backend.Feasible.holds_of_solveAt [Special K] {host : Host K σ} {p : Problem K}
    (hfeasible : host.backend.Feasible p) {sub : Subproblem p} {c x : Vec K p.vars}
    {y : Vec K p.duals} {pr pr' : Progress K σ} {a : Answer K p.vars p.duals}
    (h : pr.solveAt host sub (sub.program c) x y = (.ok a, pr')) : p.stacked.Holds a.x := by
  obtain ⟨hsolve, hstatus, -⟩ := Progress.solveAt_eq_ok_iff.mp (congrArg Prod.fst h)
  exact hfeasible _ _ _ a rfl hsolve hstatus

theorem epsilon_nonneg [IsStrictOrderedRing K] : (0 : K) ≤ epsilon := by
  norm_num [epsilon]

theorem Mat.rowNorm_bounds {m n : Nat} (A : Mat K m n) :
    0 ≤ A.rowNorm ∧ ∀ i, ∑ j, |A i j| ≤ A.rowNorm := by
  have hle : A.rowNorm ≤ A.rowNorm ↔ 0 ≤ A.rowNorm ∧ ∀ i, ∑ j, |A i j| ≤ A.rowNorm :=
    foldl_le_iff fun _ _ => max_le_iff
  exact hle.mp le_rfl

variable [IsStrictOrderedRing K]

namespace Mat
variable {m n : Nat} (A : Mat K m n)

theorem abs_mulVec_le {d : Vec K n} {δ : K} (hδ : 0 ≤ δ) (hd : ∀ j, |d.get j| ≤ δ) (i : Fin m) :
    |(A.mulVec d).get i| ≤ δ * A.rowNorm := by
  have hterm (j : Fin n) : |A i j * d.get j| ≤ δ * |A i j| := by
    rw [abs_mul, mul_comm]
    exact mul_le_mul_of_nonneg_right (hd j) (abs_nonneg _)
  calc |(A.mulVec d).get i|
      = |∑ j, A i j * d.get j| := by
        rw [get_mulVec]
        rfl
    _ ≤ ∑ j, |A i j * d.get j| := Finset.abs_sum_le_sum_abs _ _
    _ ≤ ∑ j, δ * |A i j| := Finset.sum_le_sum fun j _ => hterm j
    _ = δ * ∑ j, |A i j| := (Finset.mul_sum _ _ _).symm
    _ ≤ δ * A.rowNorm := mul_le_mul_of_nonneg_left (A.rowNorm_bounds.2 i) hδ

theorem abs_mulVec_sub_le {x x' : Vec K n} {δ : K} (hδ : 0 ≤ δ)
    (hnear : ∀ j, |x'.get j - x.get j| ≤ δ) (i : Fin m) :
    |(A.mulVec x').get i - (A.mulVec x).get i| ≤ δ * A.rowNorm := by
  rw [← get_mulVec_sub]
  refine A.abs_mulVec_le hδ (fun j => ?_) i
  rw [Vec.get_sub]
  exact hnear j

end Mat

namespace Rows
variable {m n : Nat} {r : Rows K m n} {x x' z : Vec K n}

theorem violation_shift_le (h : r.Holds z) (x : Vec K n) {α : K} (hα : 0 ≤ α) (hα' : α ≤ 1) :
    r.violation (x.shift α (z - x)) ≤ (1 - α) * r.violation x := by
  have hrest : 0 ≤ 1 - α := sub_nonneg.mpr hα'
  refine r.violation_le_iff.mpr ⟨mul_nonneg hrest (r.violation_nonneg x), fun i => ?_⟩
  obtain ⟨hlower, hupper⟩ := r.within_violation x i
  obtain ⟨hlower', hupper'⟩ := h i
  rw [Mat.get_mulVec_shift, Mat.get_mulVec_sub]
  -- The value of the row is the mean of those at `x` and `z`, with weights `1 - α` and `α`.
  refine ⟨fun l hl => ?_, fun u hu => ?_⟩
  · have hx := mul_le_mul_of_nonneg_left (hlower l hl) hrest
    have hz := mul_le_mul_of_nonneg_left (hlower' l hl) hα
    linarith
  · have hx := mul_le_mul_of_nonneg_left (hupper u hu) hrest
    have hz := mul_le_mul_of_nonneg_left (hupper' u hu) hα
    linarith

theorem violation_le_of_near {δ : K} (hδ : 0 ≤ δ) (hnear : ∀ j, |x'.get j - x.get j| ≤ δ) :
    r.violation x' ≤ r.violation x + δ * r.coeff.rowNorm := by
  have hbound : 0 ≤ δ * r.coeff.rowNorm := mul_nonneg hδ r.coeff.rowNorm_bounds.1
  refine r.violation_le_iff.mpr ⟨add_nonneg (r.violation_nonneg x) hbound, fun i => ?_⟩
  obtain ⟨hlower, hupper⟩ := r.within_violation x i
  have hmove := abs_le.mp (r.coeff.abs_mulVec_sub_le hδ hnear i)
  refine ⟨fun l hl => ?_, fun u hu => ?_⟩
  · linarith [hlower l hl, hmove.1]
  · linarith [hupper u hu, hmove.2]

end Rows

namespace Problem
variable {p : Problem K}

theorem stepLength_mem (ρ : K) (x d : Vec K p.vars) (allowance : K) :
    0 ≤ p.stepLength ρ x d allowance ∧ p.stepLength ρ x d allowance ≤ 1 := by
  unfold stepLength
  dsimp only
  split
  · rename_i hslope
    split
    · rename_i hcurvature
      rw [atMost_eq_min]
      exact ⟨le_min (div_nonneg (neg_nonneg.mpr hslope.le) hcurvature.le) zero_le_one,
        min_le_right _ _⟩
    · exact ⟨zero_le_one, le_rfl⟩
  · split
    · exact ⟨zero_le_one, le_rfl⟩
    · exact ⟨le_rfl, zero_le_one⟩

theorem abs_nudgeSign_le (i : Nat) : |(nudgeSign i : K)| ≤ 1 := by
  unfold nudgeSign
  split <;> simp

theorem abs_nudge_sub_le (iteration : Nat) (x : Vec K p.vars) (j : Fin p.vars) :
    |(p.nudge iteration x).get j - x.get j| ≤ epsilon * max 1 x.norm := by
  have hε : (0 : K) ≤ epsilon := epsilon_nonneg
  have hsize : max 1 |x.get j| ≤ max 1 x.norm := max_le_max le_rfl (x.abs_get_le_norm j)
  have hpos : 0 ≤ max 1 |x.get j| := zero_le_one.trans (le_max_left _ _)
  have hget : (p.nudge iteration x).get j - x.get j =
      nudgeSign (j.val + iteration) * (epsilon * max 1 |x.get j|) := by
    simp [nudge, atLeast_eq_max, magnitude_eq_abs, mul_assoc]
  calc |(p.nudge iteration x).get j - x.get j|
      = |(nudgeSign (j.val + iteration) : K)| * (epsilon * max 1 |x.get j|) := by
        rw [hget, abs_mul, abs_of_nonneg (mul_nonneg hε hpos)]
    _ ≤ 1 * (epsilon * max 1 x.norm) := by
        gcongr
        exact abs_nudgeSign_le _
    _ = epsilon * max 1 x.norm := one_mul _

theorem violation_nudged_le (o : Options K) (ρ : K) (iteration : Nat) (x : Vec K p.vars) :
    p.violation (p.nudged o ρ iteration x) ≤
      p.violation x + epsilon * max 1 x.norm * p.stacked.coeff.rowNorm := by
  have hδ : 0 ≤ epsilon * max 1 x.norm :=
    mul_nonneg epsilon_nonneg (zero_le_one.trans (le_max_left _ _))
  have hstay : p.violation x ≤ p.violation x + epsilon * max 1 x.norm * p.stacked.coeff.rowNorm :=
    le_add_of_nonneg_right (mul_nonneg hδ p.stacked.coeff.rowNorm_bounds.1)
  unfold nudged
  split
  · dsimp only
    split
    · exact Rows.violation_le_of_near hδ (abs_nudge_sub_le iteration x)
    · exact hstay
  · exact hstay

omit [IsStrictOrderedRing K] in
theorem nudged_eq_self {o : Options K} (h : o.nudge = false ∨ p.pairs = 0) (ρ : K) (iteration : Nat)
    (x : Vec K p.vars) : p.nudged o ρ iteration x = x := by
  have hoff : (o.nudge && decide (0 < p.pairs)) = false := by
    rcases h with h | h <;> simp [h]
  rw [nudged, hoff]
  rfl

end Problem

namespace InnerLoop
variable {p : Problem K} {o : Options K} {ρ : K}

/-- The step takes its part off the violation at the point of linearization, and the whole if it is
a full one. -/
theorem violation_landing_le {a : Answer K p.vars p.duals} (ha : p.stacked.Holds a.x)
    (l : InnerLoop p) (total : Nat) :
    p.violation (l.landing o ρ total a).x ≤ p.violation (l.moved o ρ total).point.x ∧
    (l.stepLength o ρ total a = 1 → p.violation (l.landing o ρ total a).x = 0) := by
  obtain ⟨hlow, hhigh⟩ :=
    Problem.stepLength_mem ρ (l.moved o ρ total).point.x (l.direction o ρ total a)
    (l.allowance o ρ total)
  have hstep : p.violation (l.landing o ρ total a).x ≤
      (1 - l.stepLength o ρ total a) * p.violation (l.moved o ρ total).point.x :=
    Rows.violation_shift_le ha _ hlow hhigh
  refine ⟨hstep.trans (mul_le_of_le_one_left (Rows.violation_nonneg _ _) (sub_le_self 1 hlow)),
    fun hfull => ?_⟩
  rw [hfull, sub_self, zero_mul] at hstep
  exact le_antisymm hstep (Rows.violation_nonneg _ _)

variable [Special K] {host : Host K σ} {sub : Subproblem p} {l l' : InnerLoop p}

/-- Without a nudge an iteration keeps a feasible point feasible, whether it completes or not. -/
theorem feasible_iterate (hfeasible : host.backend.Feasible p)
    (hstill : o.nudge = false ∨ p.pairs = 0) {pr pr' : Progress K σ} {st : Option InnerStatus}
    (hl : p.violation l.point.x = 0) (h : l.iterate host o sub ρ pr = (st, l', pr')) :
    p.violation l'.point.x = 0 := by
  -- A subproblem that fails leaves the point of linearization, which is the point before.
  have hmoved (total : Nat) : (l.moved o ρ total).point.x = l.point.x :=
    Problem.nudged_eq_self hstill ρ total _
  cases iterate_outcome h with
  | aborted check => exact hl
  | failed check solve => rw [hmoved, hl]
  | @stepped pr₁ _ _ a _ _ check solve report exit =>
    obtain ⟨window, rfl⟩ := exit_loop exit
    have hstep : p.violation (l.landing o ρ pr₁.total a).x ≤
        p.violation (l.moved o ρ pr₁.total).point.x :=
      (violation_landing_le (hfeasible.holds_of_solveAt solve) l pr₁.total).1
    rw [hmoved, hl] at hstep
    exact le_antisymm hstep (Rows.violation_nonneg _ _)

theorem feasible_run (hfeasible : host.backend.Feasible p) (hstill : o.nudge = false ∨ p.pairs = 0)
    {it : Iterate p} {pr pr' : Progress K σ} {r : InnerResult p}
    (h : run host o sub ρ it pr = (r, pr')) (hit : p.violation it.x = 0) :
    p.violation r.point.x = 0 := by
  obtain ⟨l, hr, hl⟩ := run_invariant (I := fun l _ => p.violation l.point.x = 0)
    (fun hl hiter => feasible_iterate hfeasible hstill hl hiter) h hit
  rw [hr]
  exact hl

end InnerLoop

namespace Run
variable [Special K] [Root K] {host : Host K σ} {o : Options K} {p : Problem K} {w : WarmStart K}
  {s : σ}

section Steps
omit [IsStrictOrderedRing K]
variable (host o p w s)

/-- An iteration of the run completes: from the point `x` by the part `α` of the way to an answer,
to `x'`. -/
inductive Steps : Vec K p.vars → K → Vec K p.vars → Prop
  | mk {sub h n pr₁ l pr₂ st l' pr' pr₃ a pr₄} (visits : Visits host o p w s sub h)
      (level : h.progress.shouldAbort host o = (false, pr₁)) (left : h.left = n + 1)
      (reach : InnerLoop.Reaches host o sub h.penalty (.start p h.penalty h.point)
        { pr₁ with outer := pr₁.outer + 1 } l pr₂)
      (limit : l.iterations ≤ o.maxInner - 1)
      (iterate : l.iterate host o sub h.penalty pr₂ = (st, l', pr'))
      (check : pr₂.shouldAbort host o = (false, pr₃))
      (solve : pr₃.solveAt host sub
        (sub.penalized (l.moved o h.penalty pr₃.total).point.x h.penalty)
        (l.moved o h.penalty pr₃.total).point.x l.point.y = (.ok a, pr₄)) :
      Steps l.point.x (l.stepLength o h.penalty pr₃.total a) l'.point.x

variable {host o p w s}

theorem Steps.begins {x x' : Vec K p.vars} {α : K} (h : Steps host o p w s x α x') :
    ∃ sub h, Begins host o p w s sub h := by
  obtain ⟨⟨first, hb, -⟩, -⟩ := h
  exact ⟨_, first, hb⟩

/-- A success comes by an iteration that completes, unless it is the start itself. -/
theorem steps_of_success {r : Solution K p.vars p.duals × σ} (course : Course host o p w s r)
    (hsuccess : r.1.status = .success) (hcert : ¬w.Certified o p) :
    ∃ x α, Steps host o p w s x α r.1.x := by
  obtain ⟨sub, h, n, pr₁, res, pr, visits, check, left, level, hstationary, rfl⟩ :=
    level_of_success course hsuccess hcert
  obtain ⟨l, pr₁, l', hreach, hlimit, ⟨hiter, hr⟩ | ⟨-, -, hr⟩⟩ := InnerLoop.run_ends level
  · rw [finish_x, hr]
    rw [hstationary] at hiter
    cases InnerLoop.iterate_outcome hiter with
    | stepped check' solve report exit =>
      exact ⟨_, _, .mk visits check left hreach hlimit hiter check' solve⟩
  · rw [hr] at hstationary
    cases hstationary

end Steps

theorem Begins.feasible (hfeasible : host.backend.Feasible p) {sub : Subproblem p} {h : Head p σ}
    (hb : Begins host o p w s sub h) : p.violation h.point.x = 0 := by
  obtain ⟨-, -, solve⟩ := hb
  unfold firstSolve firstQp at solve
  split at solve
  · exact Rows.violation_eq_zero_iff.mpr (hfeasible.holds_of_solveAt solve)
  · exact Rows.violation_eq_zero_iff.mpr (hfeasible.holds_of_solveAt solve)

theorem Visits.feasible (hfeasible : host.backend.Feasible p)
    (hstill : o.nudge = false ∨ p.pairs = 0) {sub : Subproblem p} {h : Head p σ}
    (hv : Visits host o p w s sub h) : p.violation h.point.x = 0 := by
  obtain ⟨first, hb, hr⟩ := hv
  refine hr.invariant (I := fun h => p.violation h.point.x = 0) ?_ (hb.feasible hfeasible)
  intro h h' hh hturn
  cases turn_cause hturn with
  | raised check left level verdict => exact InnerLoop.feasible_run hfeasible hstill level hh

theorem Begins.feasible_returned (hfeasible : host.backend.Feasible p)
    (hstill : o.nudge = false ∨ p.pairs = 0) {sub : Subproblem p} {h : Head p σ}
    (hb : Begins host o p w s sub h) :
    p.violation (runFrom host o p w s).1.x = 0 := by
  obtain ⟨last, hreach, hlast⟩ := exists_last h
  have hpoint : p.violation last.point.x = 0 := Visits.feasible hfeasible hstill ⟨h, hb, hreach⟩
  rw [hb.runFrom_eq, finish_x, hreach.loop_eq, loop_turn]
  cases hturn : last.turn host o sub with
  | halted status pr => exact hpoint
  | settled r status pr =>
    cases turn_cause hturn with
    | settled check left level verdict => exact InnerLoop.feasible_run hfeasible hstill level hpoint
  | raised next => exact absurd hturn (hlast next)

theorem Steps.feasible (hfeasible : host.backend.Feasible p)
    (hstill : o.nudge = false ∨ p.pairs = 0) {x x' : Vec K p.vars} {α : K}
    (h : Steps host o p w s x α x') : p.violation x' = 0 := by
  obtain ⟨visits, level, left, reach, limit, iterate, check, solve⟩ := h
  have hl := reach.keeps (I := fun l _ => p.violation l.point.x = 0)
    (fun hl hiter => InnerLoop.feasible_iterate hfeasible hstill hl hiter)
    (visits.feasible hfeasible hstill)
  exact InnerLoop.feasible_iterate hfeasible hstill hl iterate

theorem Steps.violation_le (hfeasible : host.backend.Feasible p) {x x' : Vec K p.vars} {α : K}
    (h : Steps host o p w s x α x') :
    p.violation x' ≤ p.violation x + epsilon * max 1 x.norm * p.stacked.coeff.rowNorm ∧
    (α = 1 → p.violation x' = 0) := by
  obtain ⟨visits, level, left, reach, limit, iterate, check, solve⟩ := h
  obtain ⟨window, rfl⟩ := InnerLoop.exit_loop (InnerLoop.exit_of_solved check solve iterate)
  obtain ⟨hle, hfull⟩ := InnerLoop.violation_landing_le (hfeasible.holds_of_solveAt solve) _ _
  exact ⟨hle.trans (Problem.violation_nudged_le o _ _ _), hfull⟩

variable (host o p w s)

/-- A run whose first subproblem is solved, by a solver whose solutions are feasible. Without a
nudge every point of it is feasible, whatever the run ends with. With one, an iteration adds no more
to the violation than the nudge can, and nothing is left of it after a full step. -/
theorem violation_along_run (hfeasible : host.backend.Feasible p)
    (hbegins : ∃ sub h, Begins host o p w s sub h) :
    (o.nudge = false ∨ p.pairs = 0 →
      (∀ sub h, Visits host o p w s sub h → p.violation h.point.x = 0) ∧
      (∀ x α x', Steps host o p w s x α x' → p.violation x' = 0) ∧
      p.violation (runFrom host o p w s).1.x = 0) ∧
    ∀ x α x', Steps host o p w s x α x' →
      p.violation x' ≤ p.violation x + epsilon * max 1 x.norm * p.stacked.coeff.rowNorm ∧
      (α = 1 → p.violation x' = 0) := by
  obtain ⟨sub, h, hb⟩ := hbegins
  refine ⟨fun hstill => ⟨?_, ?_, hb.feasible_returned hfeasible hstill⟩, ?_⟩
  · intro sub h hv
    exact hv.feasible hfeasible hstill
  · intro x α x' hsteps
    exact hsteps.feasible hfeasible hstill
  · intro x α x' hsteps
    exact hsteps.violation_le hfeasible

/-- The solution of the warm-up problem on one axis, from a solver that knows it. -/
theorem violation_along_run_warmUp :
    let host := Host.answering [some ⟨#[1, 0], #[0, -2], .solved, 1⟩]
    let p := Problem.warmUp
    host.backend.Feasible p ∧ (∃ sub h, Begins host Options.default p ⟨none, none, none⟩ 0 sub h) ∧
    ∃ x α x', Steps host Options.default p ⟨none, none, none⟩ 0 x α x' ∧
      p.violation x' ≤ p.violation x + epsilon * max 1 x.norm * p.stacked.coeff.rowNorm := by
  intro host p
  have hholds : p.stacked.Holds #v[1, 0] := Rows.violation_eq_zero_iff.mp (by decide +kernel)
  have hfeasible : host.backend.Feasible p := by
    intro qp hint s a hrows hsolve hstatus
    rw [Host.answering_solve] at hsolve
    obtain ⟨hx, -, -⟩ := Backend.Line.answer_ok hsolve
    have hpoint : a.x = #v[1, 0] := Vector.toArray_inj.mp hx
    rw [hpoint]
    exact hholds
  have hstatus : (runFrom host Options.default p ⟨none, none, none⟩ 0).1.status =
      .success := by decide +kernel
  have hfresh : ¬WarmStart.Certified Options.default p ⟨none, none, none⟩ := by
    rintro ⟨x, y, hx, -⟩
    cases hx
  obtain ⟨x, α, hsteps⟩ :=
    steps_of_success (runFrom_course host Options.default p ⟨none, none, none⟩ 0) hstatus hfresh
  obtain ⟨-, hbound⟩ :=
    violation_along_run host Options.default p ⟨none, none, none⟩ 0 hfeasible hsteps.begins
  exact ⟨hfeasible, hsteps.begins, x, α, _, hsteps, (hbound x α _ hsteps).1⟩

end Run

end ComplementarityQP
