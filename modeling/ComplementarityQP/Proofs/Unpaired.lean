import ComplementarityQP.Proofs.Evidence
import ComplementarityQP.Proofs.Feasibility
import ComplementarityQP.Proofs.Multipliers

/-! Problems without pairs. Main statement: a run is then one solution of the plain quadratic
program. -/
namespace ComplementarityQP
open Matrix

variable {K σ : Type}

section Empty
variable {m n : Nat}

theorem Vec.join_empty (x : Vec K m) (y : Vec K 0) : x.join y = x := by
  apply Vec.ext_get
  intro i
  exact Vec.get_join_castAdd x y i

theorem Mat.stack_empty (A : Mat K m n) (B : Mat K 0 n) : A.stack B = A := by
  ext i j
  have hupper : (A.stack B) (i.castAdd 0) j = A i j := by rw [stack, get_ofFn, Fin.addCases_left]
  exact hupper

theorem Rows.stack_empty (r : Rows K m n) (s : Rows K 0 n) : r.stack s = r := by
  obtain ⟨coeff, lower, upper⟩ := r
  simp only [stack, Mat.stack_empty, Vec.join_empty]

end Empty

def Event.isStop : Event K → Bool
  | polled cancelled => cancelled
  | _ => false

/-- The answers of the solver are those to the program alone, whatever the hint and the calls
before. -/
def Backend.Answers (b : Backend K σ)
    (answer : {n m : Nat} → Qp K n m → Except (Fault K) (Answer K n m)) : Prop :=
  ∀ {n m : Nat} (qp : Qp K n m) hint s, (b.solve qp hint s).1 = answer qp

/-- What is answered does not depend on how the shape of the program is written. -/
theorem answer_ok_of_heq {answer : {n m : Nat} → Qp K n m → Except (Fault K) (Answer K n m)}
    {n m m' : Nat} {qp : Qp K n m} {qp' : Qp K n m'} {a : Answer K n m} (hm : m = m')
    (hqp : HEq qp qp') (ha : answer qp = .ok a) :
    ∃ a', answer qp' = .ok a' ∧ a'.x = a.x ∧ a'.y.toArray = a.y.toArray ∧ a'.status = a.status := by
  subst hm
  cases hqp
  exact ⟨a, ha, rfl, rfl, rfl⟩

namespace Problem

section Plain
variable [Add K] [Mul K] [OfScientific K] (p : Problem K)

def plain : Qp K p.vars p.rows := ⟨p.cost, p.general⟩

def relaxed : Qp K p.vars p.duals := ⟨p.cost, p.stacked⟩

variable {p}

theorem relaxed_heq_plain (hpairs : p.pairs = 0) : HEq p.relaxed p.plain := by
  obtain ⟨vars, rows, pairs, quad, lin, general, left, right, x0, y0⟩ := p
  subst hpairs
  have hrows : (general.stack left.rows).stack right.rows = general :=
    (Rows.stack_empty _ _).trans (Rows.stack_empty _ _)
  apply heq_of_eq
  change (⟨_, (general.stack left.rows).stack right.rows⟩ : Qp K vars rows) = ⟨_, general⟩
  rw [hrows]

end Plain

theorem isEmpty_pairs {p : Problem K} (hpairs : p.pairs = 0) : IsEmpty (Fin p.pairs) := by
  rw [hpairs]
  exact Fin.isEmpty

theorem duals_unpaired {p : Problem K} (hpairs : p.pairs = 0) : p.duals = p.rows := by
  simp [duals, hpairs]

variable [Field K] {p : Problem K} (hpairs : p.pairs = 0)
include hpairs

theorem gradient_coupling_unpaired (x : Vec K p.vars) : (p.coupling.gradient x).get = 0 := by
  have hempty := isEmpty_pairs hpairs
  rw [get_coupling_gradient, Subsingleton.elim (p.right.gap x).get 0,
    Subsingleton.elim (p.left.gap x).get 0, mulVec_zero, mulVec_zero, add_zero]

theorem transformDuals_unpaired (ρ : K) (x : Vec K p.vars) (y : Vec K p.duals) :
    p.transformDuals ρ x y = y := by
  have hempty := isEmpty_pairs hpairs
  apply Vec.ext_get
  exact forall_parts (p.generalPart_transformDuals ρ x y) hempty.elim hempty.elim

variable [LinearOrder K]

theorem complementarity_unpaired (x : Vec K p.vars) : p.complementarity x = 0 := by
  have hempty := isEmpty_pairs hpairs
  rw [complementarity, sum_eq_sum, Finset.univ_eq_empty, Finset.sum_empty]

theorem classify_unpaired [Special K] (tol : K) (x : Vec K p.vars) (y : Vec K p.duals) :
    p.classify tol x y = .strong := by
  have hempty := isEmpty_pairs hpairs
  have hnone : p.biactive tol x = [] := List.eq_nil_iff_forall_not_mem.mpr hempty.elim
  rw [classify, hnone]
  rfl

end Problem

namespace Subproblem
variable [Field K] {p : Problem K}

theorem hess_unshifted : (⟨0⟩ : Subproblem p).hess = p.cost.hess := p.cost.hess.addDiagonal_zero

variable [LinearOrder K]

theorem unpenalized_unshifted (x : Vec K p.vars) :
    (⟨0⟩ : Subproblem p).unpenalized x = p.relaxed := by
  rw [unpenalized, recentre, if_neg (lt_irrefl 0), program, hess_unshifted]
  rfl

theorem penalized_unpaired (hpairs : p.pairs = 0) (x : Vec K p.vars) (ρ : K) :
    (⟨0⟩ : Subproblem p).penalized x ρ = p.relaxed := by
  have hlin : p.lin.shift ρ (p.coupling.gradient x) = p.lin := by
    apply Vec.ext_get
    intro j
    rw [Vec.get_shift, Problem.gradient_coupling_unpaired hpairs, smul_zero, add_zero]
  rw [penalized, gradient, recentre, if_neg (lt_irrefl 0), hlin, program, hess_unshifted]
  rfl

theorem isRay_unshifted [Special K] (qp : Qp K p.vars p.duals) (x step : Vec K p.vars) :
    (⟨0⟩ : Subproblem p).isRay qp x step = false := by
  simp [isRay]

theorem build_of_acceptable [Root K] {o : Options K} {needsDefinite : Bool}
    (h : acceptable p needsDefinite p.cost.hess = true) : build p needsDefinite o = .ok ⟨0⟩ := by
  rw [build, find, if_pos h]

end Subproblem

variable [Field K] [LinearOrder K] [Special K] {host : Host K σ} {o : Options K} {p : Problem K}
  {answer : {n m : Nat} → Qp K n m → Except (Fault K) (Answer K n m)} {a : Answer K p.vars p.duals}

theorem Progress.solveAt_unshifted (hanswers : host.backend.Answers answer) {pr : Progress K σ}
    {qp : Qp K p.vars p.duals} {x : Vec K p.vars} {y : Vec K p.duals} :
    (pr.solveAt host ⟨0⟩ qp x y).1 = .ok a ↔ answer qp = .ok a ∧ a.status = .solved := by
  rw [solveAt_eq_ok_iff, hanswers, Subproblem.isRay_unshifted]
  simp

/-- There are no pairs, and every subproblem is solved by `a`. -/
structure Problem.SolvedBy (p : Problem K) (host : Host K σ) (a : Answer K p.vars p.duals) :
    Prop where
  unpaired : p.pairs = 0
  solve (ρ : K) (x : Vec K p.vars) (y : Vec K p.duals) (pr : Progress K σ) :
    (pr.solveAt host ⟨0⟩ (Subproblem.penalized ⟨0⟩ x ρ) x y).1 = .ok a

theorem Problem.solvedBy_of_answer (hanswers : host.backend.Answers answer) (hpairs : p.pairs = 0)
    (hanswer : answer p.relaxed = .ok a) (hsolved : a.status = .solved) : p.SolvedBy host a := by
  refine ⟨hpairs, fun ρ x y pr => ?_⟩
  rw [Progress.solveAt_unshifted hanswers, Subproblem.penalized_unpaired hpairs]
  exact ⟨hanswer, hsolved⟩

section Level
variable [IsStrictOrderedRing K] (hp : p.SolvedBy host a) (hstep : 0 ≤ o.stepTol) {ρ : K}
include hp hstep

namespace InnerLoop

theorem iterate_unpaired {l l' : InnerLoop p} {pr pr' : Progress K σ} {st : Option InnerStatus}
    (hl : l.point = ⟨a.x, a.y⟩) (h : l.iterate host o ⟨0⟩ ρ pr = (st, l', pr')) :
    st = some .aborted ∨
      st = some .stationary ∧ l'.point = ⟨a.x, a.y⟩ ∧ l'.iterations = l.iterations + 1 ∧
        l'.complementarity = 0 := by
  have hmoved (total : Nat) : (l.moved o ρ total).point.x = a.x := by
    rw [moved, Problem.nudged_eq_self (.inr hp.unpaired), hl]
  have hdirection (total : Nat) : l.direction o ρ total a = a.x - a.x := by rw [direction, hmoved]
  cases iterate_outcome h with
  | aborted check => exact .inl rfl
  | failed check solve => cases (congrArg Prod.fst solve).symm.trans (hp.solve _ _ _ _)
  | @stepped pr₁ _ _ _ _ _ check solve report exit =>
    cases (congrArg Prod.fst solve).symm.trans (hp.solve _ _ _ _)
    -- Whatever the length of the step, it stays at the answer, and that ends the loop.
    have hlanding : l.landing o ρ pr₁.total a = ⟨a.x, a.y⟩ := by
      rw [landing, hmoved, hdirection, Vec.shift_sub_self]
    have hshort : l.stepNorm o ρ pr₁.total a ≤ o.stepTol := by
      rwa [stepNorm, hdirection, Vec.norm_sub_self, mul_zero]
    rw [InnerLoop.exit, if_pos (by simp [hshort])] at exit
    cases exit
    exact .inr ⟨rfl, hlanding, rfl, Problem.complementarity_unpaired hp.unpaired _⟩

theorem run_unpaired {pr pr' : Progress K σ} {r : InnerResult p}
    (h : run host o ⟨0⟩ ρ ⟨a.x, a.y⟩ pr = (r, pr')) :
    r.status = .aborted ∨
      r.status = .stationary ∧ r.point = ⟨a.x, a.y⟩ ∧ r.iterations = 1 ∧ r.complementarity = 0 := by
  obtain ⟨last, pr₁, l, hreach, -, hend⟩ := run_ends h
  cases hreach with
  | go first _ =>
    obtain hno | ⟨hno, -⟩ := iterate_unpaired hp hstep rfl first <;> cases hno
  | here =>
    obtain ⟨hiter, hr⟩ | ⟨hiter, -, -⟩ := hend
    · obtain hst | ⟨hst, hl⟩ := iterate_unpaired hp hstep rfl hiter
      · exact .inl (Option.some.inj hst)
      · refine .inr ⟨Option.some.inj hst, ?_⟩
        rw [hr]
        exact hl
    · obtain hno | ⟨hno, -⟩ := iterate_unpaired hp hstep rfl hiter <;> cases hno

end InnerLoop

namespace Run

theorem verdict_unpaired (htol : 0 ≤ o.complementarityTol) {pr pr' : Progress K σ}
    {r : InnerResult p} (h : InnerLoop.run host o ⟨0⟩ ρ ⟨a.x, a.y⟩ pr = (r, pr')) :
    verdict o ρ r = some .aborted ∨ verdict o ρ r = some .success ∧ r.point = ⟨a.x, a.y⟩ ∧
      r.iterations = 1 := by
  obtain hst | ⟨hst, hpoint, hcount, hcomplementary⟩ := InnerLoop.run_unpaired hp hstep h
  · left
    rw [verdict, hst]
  · refine .inr ⟨?_, hpoint, hcount⟩
    rw [verdict, hst]
    dsimp only
    rw [hcomplementary, if_pos htol]

/-- From the answer the outer loop needs one level with one iteration. -/
theorem loop_unpaired (htol : 0 ≤ o.complementarityTol) {h : Head p σ}
    (hpoint : h.point = ⟨a.x, a.y⟩) (hleft : h.left ≠ 0) :
    (h.loop host o ⟨0⟩).1.status = .aborted ∨
      (h.loop host o ⟨0⟩).1 = ⟨⟨a.x, a.y⟩, h.penalty, 0, .success⟩ ∧
      Progress.Quiet
        { h.progress with outer := h.progress.outer + 1, total := h.progress.total + 1 }
        (h.loop host o ⟨0⟩).2 := by
  rw [loop_turn]
  cases hturn : h.turn host o ⟨0⟩ with
  | halted status pr =>
    cases turn_cause hturn with
    | aborted check => exact .inl rfl
    | limit check left => exact absurd left hleft
  | settled r status pr =>
    cases turn_cause hturn with
    | settled check left level verdict =>
      rw [hpoint] at level
      obtain hv | ⟨hv, hend, hcount⟩ := verdict_unpaired hp hstep htol level
      · cases hv.symm.trans verdict
        exact .inl rfl
      · cases hv.symm.trans verdict
        have hquiet := quiet_of_level check level
        rw [hcount] at hquiet
        refine .inr ⟨?_, hquiet⟩
        dsimp only
        rw [hend]
  | raised next =>
    cases turn_cause hturn with
    | raised check left level verdict =>
      rw [hpoint] at level
      obtain hv | ⟨hv, -⟩ := verdict_unpaired hp hstep htol level <;> cases hv.symm.trans verdict

end Run

end Level

namespace Run

theorem firstSolve_unpaired (hanswers : host.backend.Answers answer) (hpairs : p.pairs = 0)
    {x0 : Option (Vec K p.vars)} {y0 : Option (Vec K p.duals)} {ρ : K} {pr : Progress K σ} :
    (firstSolve host o ⟨0⟩ x0 y0 ρ pr).1 = .ok a ↔ answer p.relaxed = .ok a ∧
      a.status = .solved := by
  have hqp : firstQp o ⟨0⟩ x0 y0 ρ = p.relaxed := by
    unfold firstQp
    split
    · exact Subproblem.unpenalized_unshifted _
    · exact Subproblem.penalized_unpaired hpairs _ _
  rw [firstSolve, hqp, Progress.solveAt_unshifted hanswers]

variable [Root K]

section Undisturbed
variable (host o p) (w : WarmStart K) (s : σ)

/-- No check of the run finds that it is cancelled or out of time. -/
def Undisturbed : Prop := ∀ check, check <:+: journal host o p w s →
    ¬Check o (host.clock s).1 true check

end Undisturbed

variable {w : WarmStart K} {s : σ}

/-- Without a time limit a run is undisturbed if no request to stop is found. -/
theorem undisturbed_of_unlimited (hlimit : o.timeLimit = none)
    (hpolls : (journal host o p w s).any Event.isStop = false) :
    Undisturbed host o p w s := by
  intro check hinfix hcheck
  generalize hstop : true = stop at hcheck
  cases hcheck with
  | cancelled =>
    have hmem := hinfix.subset (List.mem_singleton_self _)
    exact absurd rfl (List.any_eq_false.mp hpolls _ hmem)
  | unlimited limit => cases hstop
  | timed limited => cases hlimit.symm.trans limited

variable [IsStrictOrderedRing K]

theorem Undisturbed.not_aborted (ho : o.Valid) (h : Undisturbed host o p w s) :
    (runFrom host o p w s).1.status ≠ .aborted := by
  intro haborted
  have hevidence := evidence_of_course ho (runFrom_course host.journaled o p w (s, []))
  rw [runFrom_journaled, haborted] at hevidence
  obtain ⟨before, check, after, hevents, hcheck, -⟩ := hevidence
  exact h check ⟨before, after, hevents.symm⟩ hcheck

section Direct
variable (hpairs : p.pairs = 0) (hanswers : host.backend.Answers answer)
  {x0 : Option (Vec K p.vars)} {y0 : Option (Vec K p.duals)} (hadmitted : Admitted o p w x0 y0)
  (hbuild : Subproblem.build p host.backend.needsDefinite o = .ok ⟨0⟩)
include hpairs hanswers hadmitted hbuild

theorem run_of_solved (ho : o.Valid) (hquiet : Undisturbed host o p w s)
    (hanswer : answer p.relaxed = .ok a) (hsolved : a.status = .solved) :
    let sol := (runFrom host o p w s).1
    sol.status = .success ∧ sol.x = a.x ∧ sol.y = a.y ∧ sol.stationarity = .strong ∧
      sol.stats.outer = 1 ∧
    sol.stats.inner = 2 ∧ sol.stats.complementarity = 0 ∧
      sol.stats.history = [firstPenalty o w] := by
  have hok : (firstSolve host o ⟨0⟩ x0 y0 (firstPenalty o w) (.start host s)).1 = .ok a :=
    (firstSolve_unpaired hanswers hpairs).mpr ⟨hanswer, hsolved⟩
  rcases hfirst : firstSolve host o ⟨0⟩ x0 y0 (firstPenalty o w) (.start host s) with ⟨st | b, pr⟩
  · rw [hfirst] at hok
    cases hok
  · rw [hfirst] at hok
    cases hok
    have hbegins : Begins host o p w s ⟨0⟩ (firstHead host o (firstPenalty o w) pr a) :=
      .mk hadmitted hbuild hfirst
    have hcounts := Progress.quiet_of_solveAt hfirst
    have hnot := hquiet.not_aborted ho
    rw [hbegins.runFrom_eq] at hnot ⊢
    have hp := Problem.solvedBy_of_answer hanswers hpairs hanswer hsolved
    obtain haborted | ⟨hend, hlevel⟩ := loop_unpaired hp ho.stepTol.1 ho.complementarityTol.1.le
      (h := firstHead host o (firstPenalty o w) pr a) rfl ho.limits.1
    · rw [finish_status, haborted] at hnot
      exact absurd rfl hnot
    · rw [hend]
      refine ⟨rfl, rfl, Problem.transformDuals_unpaired hpairs _ _ _,
        Problem.classify_unpaired hpairs _ _ _, ?_, ?_, Problem.complementarity_unpaired hpairs _,
        ?_⟩
      · exact hlevel.outer.trans (congrArg (· + 1) hcounts.outer)
      · exact hlevel.total.trans (congrArg (· + 1 + 1) hcounts.total)
      · exact hlevel.history.trans hcounts.history

omit [IsStrictOrderedRing K] in
theorem run_of_unsolved (hno : ¬∃ a, answer p.relaxed = .ok a ∧ a.status = .solved) :
    let sol := (runFrom host o p w s).1
    sol.status = .initialFailed ∧ sol.x.toArray = w.x.getD (Vec.zero p.vars).toArray ∧
    sol.y.toArray = w.y.getD (Vec.zero p.duals).toArray := by
  rw [runFrom_of_admitted hadmitted, hbuild]
  dsimp only
  rw [fromPoint_eq]
  rcases hfirst : firstSolve host o ⟨0⟩ x0 y0 (firstPenalty o w) (.start host s) with ⟨st | a, pr⟩
  · exact ⟨rfl, startVector_getD hadmitted.x _, startVector_getD hadmitted.y _⟩
  · exact absurd ⟨a, (firstSolve_unpaired hanswers hpairs).mp (congrArg Prod.fst hfirst)⟩ hno

end Direct

end Run

/-- Minimise `x² - 2 x` under `0 ≤ x ≤ ½`. -/
def Problem.box : Problem ℚ where
  vars := 1
  rows := 1
  pairs := 0
  quad := Mat.ofFn fun _ _ => 2
  lin := #v[-2]
  general := ⟨Mat.ofFn fun _ _ => 1, #v[.at 0], #v[.at (1 / 2)]⟩
  left := ⟨Mat.zero 0 1, Vec.zero 0, .replicate 0 .posInf⟩
  right := ⟨Mat.zero 0 1, Vec.zero 0, .replicate 0 .posInf⟩
  x0 := none
  y0 := none

namespace Run

end Run

end ComplementarityQP
