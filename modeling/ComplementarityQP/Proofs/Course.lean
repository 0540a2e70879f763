import ComplementarityQP.Proofs.Levels

/-! The course of a run, from the check of its start to the place where it ends. -/
namespace ComplementarityQP

variable {K σ : Type}

theorem Vec.ofArray?_toArray {n : Nat} (x : Vec K n) : Vec.ofArray? n x.toArray = some x := by
  simp [Vec.ofArray?]

section Start
variable [Special K]

def Unusable (n : Nat) (given : Option (Array K)) : Prop :=
  ∃ xs, given = some xs ∧ (xs.size ≠ n ∨ ∃ x ∈ xs, isFinite x = false)

theorem Vec.allFinite_iff {n : Nat} {x : Vec K n} :
    x.allFinite = true ↔ ∀ a ∈ x.toArray, isFinite a = true := by
  rw [allFinite, Vector.all, Array.all_eq_true_iff_forall_mem]

theorem startVector_error_iff {name : String} {n : Nat} {given : Option (Array K)} :
    (∃ f, startVector name n given = .error f) ↔ Unusable n given := by
  cases given with
  | none => simp [startVector, Unusable]
  | some xs =>
    by_cases hn : xs.size = n
    · have hx : Vec.ofArray? n xs = some ⟨xs, hn⟩ := dif_pos hn
      have hall := Vec.allFinite_iff (x := (⟨xs, hn⟩ : Vec K n))
      by_cases hf : Vec.allFinite (⟨xs, hn⟩ : Vec K n) = true
      · simpa [startVector, hx, hf, hn, Unusable] using hall.mp hf
      · simpa [startVector, hx, hf, hn, Unusable] using mt hall.mpr hf
    · have hx : Vec.ofArray? n xs = none := dif_neg hn
      simp [startVector, hx, hn, Unusable]

theorem startVector_ok {name : String} {n : Nat} {given : Option (Array K)} {x0 : Option (Vec K n)}
    (h : startVector name n given = .ok x0) : given = x0.map Vector.toArray := by
  cases given with
  | none =>
    cases h
    rfl
  | some xs =>
    by_cases hn : xs.size = n
    · have hx : Vec.ofArray? n xs = some ⟨xs, hn⟩ := dif_pos hn
      simp only [startVector, hx] at h
      split at h
      · cases h
        rfl
      · cases h
    · have hx : Vec.ofArray? n xs = none := dif_neg hn
      simp only [startVector, hx] at h
      cases h

theorem startVector_getD {n : Nat} {name : String} {given : Option (Array K)}
    {x0 : Option (Vec K n)} (h : startVector name n given = .ok x0) (z : Vec K n) :
    (x0.getD z).toArray = given.getD z.toArray := by
  rw [startVector_ok h]
  cases x0 with
  | none => rfl
  | some x => rfl

def WarmStart.Rejected (p : Problem K) (w : WarmStart K) : Prop :=
  Unusable p.vars w.x ∨ Unusable p.duals w.y

variable {p : Problem K} {w : WarmStart K}

theorem rejected_of_error {f : Fault K}
    (h : startVector "x" p.vars w.x = .error f ∨ startVector "y" p.duals w.y = .error f) :
    w.Rejected p :=
  h.imp (fun h => startVector_error_iff.mp ⟨f, h⟩) fun h => startVector_error_iff.mp ⟨f, h⟩

theorem not_rejected_of_ok {x0 : Option (Vec K p.vars)} {y0 : Option (Vec K p.duals)}
    (hx : startVector "x" p.vars w.x = .ok x0) (hy : startVector "y" p.duals w.y = .ok y0) :
    ¬w.Rejected p := by
  rintro (h | h)
  · obtain ⟨f, hf⟩ := startVector_error_iff.mpr h
    cases hx.symm.trans hf
  · obtain ⟨f, hf⟩ := startVector_error_iff.mpr h
    cases hy.symm.trans hf

end Start

variable [Zero K] [One K] [Add K] [Sub K] [Neg K] [Mul K] [LT K] [LE K] [DecidableLT K]
  [DecidableLE K] [OfScientific K] [Special K]

def WarmStart.Certified (o : Options K) (p : Problem K) (w : WarmStart K) : Prop :=
  ∃ x y, w.x = some x ∧ w.y = some y ∧ p.isCertified o x y = true

theorem Problem.isCertified_toArray {p : Problem K} (o : Options K) (x : Vec K p.vars)
    (y : Vec K p.duals) :
    p.isCertified o x.toArray y.toArray = p.certified o x y := by
  simp only [isCertified, Vec.ofArray?_toArray]

theorem certified_of_ok {o : Options K} {p : Problem K} {w : WarmStart K} {x : Vec K p.vars}
    {y : Vec K p.duals} (hx : startVector "x" p.vars w.x = .ok (some x))
    (hy : startVector "y" p.duals w.y = .ok (some y)) (hc : p.certified o x y = true) :
    w.Certified o p := by
  refine ⟨x.toArray, y.toArray, startVector_ok hx, startVector_ok hy, ?_⟩
  rw [Problem.isCertified_toArray, hc]

namespace Run

/-- The start is accepted, as the vectors `x0` and `y0`, and is not a solution yet. -/
structure Admitted (o : Options K) (p : Problem K) (w : WarmStart K) (x0 : Option (Vec K p.vars))
    (y0 : Option (Vec K p.duals)) : Prop where
  x : startVector "x" p.vars w.x = .ok x0
  y : startVector "y" p.duals w.y = .ok y0
  uncertified : ∀ x y, x0 = some x → y0 = some y → p.certified o x y = false

namespace Admitted
variable {o : Options K} {p : Problem K} {w : WarmStart K} {x0 : Option (Vec K p.vars)}
  {y0 : Option (Vec K p.duals)}

theorem not_rejected (h : Admitted o p w x0 y0) : ¬w.Rejected p := not_rejected_of_ok h.x h.y

theorem not_certified (h : Admitted o p w x0 y0) : ¬w.Certified o p := by
  rintro ⟨x, y, hx, hy, hc⟩
  have hx0 := (startVector_ok h.x).symm.trans hx
  have hy0 := (startVector_ok h.y).symm.trans hy
  simp only [Option.map_eq_some_iff] at hx0 hy0
  obtain ⟨x', hx', rfl⟩ := hx0
  obtain ⟨y', hy', rfl⟩ := hy0
  rw [Problem.isCertified_toArray, h.uncertified x' y' hx' hy'] at hc
  cases hc

end Admitted

theorem admitted_of_not {o : Options K} {p : Problem K} {w : WarmStart K}
    (hrejected : ¬w.Rejected p) (hcertified : ¬w.Certified o p) :
    ∃ x0 y0, Admitted o p w x0 y0 := by
  cases hx : startVector "x" p.vars w.x with
  | error f => exact absurd (rejected_of_error (.inl hx)) hrejected
  | ok x0 =>
    cases hy : startVector "y" p.duals w.y with
    | error f => exact absurd (rejected_of_error (.inr hy)) hrejected
    | ok y0 =>
      refine ⟨x0, y0, hx, hy, ?_⟩
      rintro x y rfl rfl
      exact Bool.eq_false_iff.mpr fun hc => hcertified (certified_of_ok hx hy hc)

/-- The point of the first subproblem: what is given, and zeros for the rest. -/
def startPoint {p : Problem K} (x0 : Option (Vec K p.vars)) (y0 : Option (Vec K p.duals)) :
    Iterate p :=
  ⟨x0.getD (Vec.zero _), y0.getD (Vec.zero _)⟩

section Finish
variable {p : Problem K} (host : Host K σ) (o : Options K) (e : Ending p) (pr : Progress K σ)
omit [One K]

theorem finish_x : (finish host o e pr).1.x = e.point.x := by
  unfold finish
  split <;> rfl

theorem finish_y :
    (finish host o e pr).1.y =
      if e.status = .success then p.transformDuals e.penalty e.point.x e.point.y else
        e.point.y := by
  unfold finish
  by_cases h : e.status = .success
  · simp [h, RunStatus.isSuccess, succeed, close]
  · simp [h, RunStatus.isSuccess, fail, close]

theorem finish_status : (finish host o e pr).1.status = e.status := by
  unfold finish
  split <;> rfl

theorem finish_outer : (finish host o e pr).1.stats.outer = pr.outer := by
  unfold finish
  split <;> rfl

theorem finish_history : (finish host o e pr).1.stats.history = pr.history := by
  unfold finish
  split <;> rfl

theorem finish_finalPenalty : (finish host o e pr).1.stats.finalPenalty = e.penalty := by
  unfold finish
  split <;> rfl

end Finish

variable [Div K]

def firstPenalty (o : Options K) (w : WarmStart K) : K := startPenalty o (w.penalty.filter isFinite)

variable [BEq K]

section First
variable {p : Problem K} (host : Host K σ) (o : Options K) (sub : Subproblem p)
  (x0 : Option (Vec K p.vars)) (y0 : Option (Vec K p.duals)) (ρ : K) (pr : Progress K σ)

def firstQp : Qp K p.vars p.duals :=
  if x0.isNone && o.zeroPenaltyFirst then sub.unpenalized (startPoint x0 y0).x
  else sub.penalized (startPoint x0 y0).x ρ

def firstSolve : Except (Option QpStatus) (Answer K p.vars p.duals) × Progress K σ :=
  Progress.solveAt host sub (firstQp o sub x0 y0 ρ) (startPoint x0 y0).x (startPoint x0 y0).y
    { pr with history := pr.history ++ [ρ] }

def firstHead (a : Answer K p.vars p.duals) : Head p σ :=
  ⟨o.maxOuter, ρ, ⟨a.x, a.y⟩,
    report host o .initialization ⟨a.x, a.y⟩ ρ { pr with total := pr.total + 1 }⟩

theorem fromPoint_eq :
    fromPoint host o sub x0 y0 ρ pr =
      match firstSolve host o sub x0 y0 ρ pr with
      | (.error _, pr) => fail host o ⟨startPoint x0 y0, ρ, sub.shift, .initialFailed⟩ pr
      | (.ok a, pr) =>
        let e := (firstHead host o ρ pr a).loop host o sub
        finish host o e.1 e.2 := rfl

end First

variable [Root K] (host : Host K σ) (o : Options K) (p : Problem K) (w : WarmStart K) (s : σ)

inductive Begins : Subproblem p → Head p σ → Prop
  | mk {x0 y0 sub a pr} (admitted : Admitted o p w x0 y0)
      (build : Subproblem.build p host.backend.needsDefinite o = .ok sub)
      (solve : firstSolve host o sub x0 y0 (firstPenalty o w) (.start host s) = (.ok a, pr)) :
      Begins sub (firstHead host o (firstPenalty o w) pr a)

def Visits (sub : Subproblem p) (h : Head p σ) : Prop :=
  ∃ first, Begins host o p w s sub first ∧ Reaches host o sub first h

/-- The ways through a run. -/
inductive Course : Solution K p.vars p.duals × σ → Prop
  | rejected {f} (start : startVector "x" p.vars w.x = .error f ∨
    startVector "y" p.duals w.y = .error f) :
      Course (fail host o ⟨startPoint none none, o.initialPenalty, 0, .invalid⟩ (.start host s))
  | certified {x y} (hx : startVector "x" p.vars w.x = .ok (some x))
    (hy : startVector "y" p.duals w.y = .ok (some y))
      (certified : p.certified o x y = true) :
      Course (succeed host o ⟨⟨x, y⟩, (w.penalty.filter isFinite).getD o.initialPenalty, 0,
        .success⟩ (.start host s))
  | unbuildable {x0 y0 f} (admitted : Admitted o p w x0 y0)
      (build : Subproblem.build p host.backend.needsDefinite o = .error f) :
      Course (fail host o ⟨startPoint x0 y0, o.initialPenalty, 0, .qpFailed⟩ (.start host s))
  | unsolved {x0 y0 sub st pr} (admitted : Admitted o p w x0 y0)
      (build : Subproblem.build p host.backend.needsDefinite o = .ok sub)
      (solve : firstSolve host o sub x0 y0 (firstPenalty o w) (.start host s) = (.error st, pr)) :
      Course (fail host o ⟨startPoint x0 y0, firstPenalty o w, sub.shift, .initialFailed⟩ pr)
  | halted {sub h status pr} (visits : Visits host o p w s sub h)
    (turn : h.turn host o sub = .halted status pr) :
      Course (finish host o ⟨h.point, h.penalty, sub.shift, status⟩ pr)
  | settled {sub h r status pr} (visits : Visits host o p w s sub h)
      (turn : h.turn host o sub = .settled r status pr) :
      Course (finish host o ⟨r.point, h.penalty, sub.shift, status⟩ pr)

variable {host o p w s}

theorem runFrom_of_admitted {x0 : Option (Vec K p.vars)} {y0 : Option (Vec K p.duals)}
    (h : Admitted o p w x0 y0) :
    runFrom host o p w s =
      match Subproblem.build p host.backend.needsDefinite o with
      | .error _ => fail host o ⟨startPoint x0 y0, o.initialPenalty, 0, .qpFailed⟩ (.start host s)
      | .ok sub => fromPoint host o sub x0 y0 (firstPenalty o w) (.start host s) := by
  have hnone : (do
      let x ← x0
      let y ← y0
      if p.certified o x y then some (⟨x, y⟩ : Iterate p) else none) = none := by
    cases x0 with
    | none => rfl
    | some x =>
      cases y0 with
      | none => rfl
      | some y => simp [h.uncertified x y rfl rfl]
  unfold runFrom
  simp only [h.x, h.y, hnone]
  rfl

theorem course_of_admitted {x0 : Option (Vec K p.vars)} {y0 : Option (Vec K p.duals)}
    (h : Admitted o p w x0 y0) : Course host o p w s (runFrom host o p w s) := by
  rw [runFrom_of_admitted h]
  cases build : Subproblem.build p host.backend.needsDefinite o with
  | error f => exact .unbuildable h build
  | ok sub =>
    dsimp only
    rw [fromPoint_eq]
    rcases solve : firstSolve host o sub x0 y0 (firstPenalty o w) (.start host s) with ⟨st | a, pr⟩
    · exact .unsolved h build solve
    · obtain ⟨last, hreach, hlast⟩ := exists_last (firstHead host o (firstPenalty o w) pr a)
      have hvisits : Visits host o p w s sub last := ⟨_, .mk h build solve, hreach⟩
      dsimp only
      rw [hreach.loop_eq, loop_turn]
      cases hturn : last.turn host o sub with
      | halted status pr' => exact .halted hvisits hturn
      | settled r status pr' => exact .settled hvisits hturn
      | raised next => exact absurd hturn (hlast next)

variable (host o p w s)

theorem runFrom_course : Course host o p w s (runFrom host o p w s) := by
  cases hx : startVector "x" p.vars w.x with
  | error f =>
    have hrun : runFrom host o p w s =
        fail host o ⟨startPoint none none, o.initialPenalty, 0, .invalid⟩ (.start host s) := by
      unfold runFrom
      simp only [hx]
      rfl
    rw [hrun]
    exact .rejected (.inl hx)
  | ok x0 =>
    cases hy : startVector "y" p.duals w.y with
    | error f =>
      have hrun : runFrom host o p w s =
          fail host o ⟨startPoint none none, o.initialPenalty, 0, .invalid⟩ (.start host s) := by
        unfold runFrom
        simp only [hx, hy]
        rfl
      rw [hrun]
      exact .rejected (.inr hy)
    | ok y0 =>
      by_cases hc : ∃ x y, x0 = some x ∧ y0 = some y ∧ p.certified o x y = true
      · obtain ⟨x, y, rfl, rfl, hc⟩ := hc
        have hrun : runFrom host o p w s = succeed host o
            ⟨⟨x, y⟩, (w.penalty.filter isFinite).getD o.initialPenalty, 0, .success⟩
            (.start host s) := by
          unfold runFrom
          simp [hx, hy, hc]
        rw [hrun]
        exact .certified hx hy hc
      · refine course_of_admitted ⟨hx, hy, fun x y hx0 hy0 => ?_⟩
        exact Bool.eq_false_iff.mpr fun hcert => hc ⟨x, y, hx0, hy0, hcert⟩

variable {host o p w s}

theorem Begins.unique {sub sub' : Subproblem p} {h h' : Head p σ} (hb : Begins host o p w s sub h)
    (hb' : Begins host o p w s sub' h') : sub = sub' ∧ h = h' := by
  obtain ⟨admitted, build, solve⟩ := hb
  obtain ⟨admitted', build', solve'⟩ := hb'
  cases admitted.x.symm.trans admitted'.x
  cases admitted.y.symm.trans admitted'.y
  cases build.symm.trans build'
  cases solve.symm.trans solve'
  exact ⟨rfl, rfl⟩

/-- From where the run comes to its outer loop, it returns what the loop ends with. -/
theorem Begins.runFrom_eq {sub : Subproblem p} {h : Head p σ} (hb : Begins host o p w s sub h) :
    runFrom host o p w s = finish host o (h.loop host o sub).1 (h.loop host o sub).2 := by
  obtain ⟨admitted, build, solve⟩ := hb
  rw [runFrom_of_admitted admitted, build]
  dsimp only
  rw [fromPoint_eq, solve]

theorem Visits.not_halted {sub sub' : Subproblem p} {h h' : Head p σ} {r : InnerResult p}
    {status status' : RunStatus} {pr pr' : Progress K σ} (hv : Visits host o p w s sub h)
    (ht : h.turn host o sub = .settled r status pr) (hv' : Visits host o p w s sub' h') :
    h'.turn host o sub' ≠ .halted status' pr' := by
  obtain ⟨first, hb, hr⟩ := hv
  obtain ⟨first', hb', hr'⟩ := hv'
  obtain ⟨rfl, rfl⟩ := hb.unique hb'
  intro ht'
  clear hb hb'
  -- Both ways start at the same head, and the turn at a head is determined, so they stay together.
  induction hr with
  | here =>
    cases hr' with
    | here => cases ht.symm.trans ht'
    | go next _ => cases ht.symm.trans next
  | go next _ ih =>
    cases hr' with
    | here => cases next.symm.trans ht'
    | go next' rest =>
      cases next.symm.trans next'
      exact ih ht rest

/-- A success is the start itself or the result of a stationary level. -/
theorem level_of_success {r : Solution K p.vars p.duals × σ} (course : Course host o p w s r)
    (hsuccess : r.1.status = .success) (hcert : ¬w.Certified o p) :
    ∃ sub h n pr₁ res pr, Visits host o p w s sub h ∧ h.progress.shouldAbort host o = (false, pr₁) ∧
      h.left = n + 1 ∧
      InnerLoop.run host o sub h.penalty h.point { pr₁ with outer := pr₁.outer + 1 } = (res, pr) ∧
      res.status = .stationary ∧
        r = finish host o ⟨res.point, h.penalty, sub.shift, .success⟩ pr := by
  cases course with
  | rejected => cases hsuccess
  | certified hx hy certified => exact absurd (certified_of_ok hx hy certified) hcert
  | unbuildable => cases hsuccess
  | unsolved => cases hsuccess
  | halted visits turn =>
    rw [finish_status] at hsuccess
    cases turn_cause turn <;> cases hsuccess
  | settled visits turn =>
    rw [finish_status] at hsuccess
    cases turn_cause turn with
    | settled check left level verdict =>
      subst hsuccess
      obtain ⟨hstationary, -⟩ := verdict_grounds verdict
      exact ⟨_, _, _, _, _, _, visits, check, left, level, hstationary, rfl⟩

theorem Visits.started {sub : Subproblem p} {h : Head p σ} (hv : Visits host o p w s sub h) :
    h.progress.started = (host.clock s).1 := by
  obtain ⟨first, ⟨admitted, build, solve⟩, hr⟩ := hv
  refine hr.invariant (I := fun h => h.progress.started = (host.clock s).1) ?_ ?_
  · intro h h' hh ht
    cases turn_cause ht with
    | raised check left level verdict => exact (quiet_of_level check level).started.trans hh
  · exact (Progress.quiet_of_solveAt solve).started

section Early
variable (host o p w s)

def EndsEarly : Prop :=
  w.Rejected p ∨ w.Certified o p ∨ ∃ f, Subproblem.build p host.backend.needsDefinite o = .error f

/-- The run ends at a check of the outer loop, not by the result of a level. -/
def HaltsAtHead : Prop := ∃ sub h status pr, Visits host o p w s sub h ∧
    h.turn host o sub = .halted status pr

variable {host o p w s}

omit [BEq K] in
theorem endsEarly_of_certified {x : Vec K p.vars} {y : Vec K p.duals}
    (hx : startVector "x" p.vars w.x = .ok (some x))
    (hy : startVector "y" p.duals w.y = .ok (some y)) (hc : p.certified o x y = true) :
    EndsEarly host o p w :=
  .inr (.inl (certified_of_ok hx hy hc))

omit [BEq K] in
theorem Admitted.not_endsEarly {x0 : Option (Vec K p.vars)} {y0 : Option (Vec K p.duals)}
    {sub : Subproblem p} (h : Admitted o p w x0 y0)
    (build : Subproblem.build p host.backend.needsDefinite o = .ok sub) :
    ¬EndsEarly host o p w := by
  rintro (hr | hc | ⟨f, hf⟩)
  · exact h.not_rejected hr
  · exact h.not_certified hc
  · cases build.symm.trans hf

theorem Visits.not_rejected {sub : Subproblem p} {h : Head p σ} (hv : Visits host o p w s sub h) :
    ¬w.Rejected p := by
  obtain ⟨first, ⟨admitted, -, -⟩, -⟩ := hv
  exact admitted.not_rejected

theorem Visits.not_endsEarly {sub : Subproblem p} {h : Head p σ} (hv : Visits host o p w s sub h) :
    ¬EndsEarly host o p w := by
  obtain ⟨first, ⟨admitted, build, -⟩, -⟩ := hv
  exact admitted.not_endsEarly build

theorem HaltsAtHead.not_endsEarly (h : HaltsAtHead host o p w s) : ¬EndsEarly host o p w := by
  obtain ⟨sub, head, status, pr, hv, -⟩ := h
  exact hv.not_endsEarly

end Early

end Run

end ComplementarityQP
