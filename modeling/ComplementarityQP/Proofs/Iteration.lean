import ComplementarityQP.Proofs.Progress
import ComplementarityQP.Run.Inner

/-! The inner loop as a machine: what one iteration can do, where a loop ends, and the points on its
way. -/
namespace ComplementarityQP

/-- Has the last iteration of the loop taken its step? -/
def InnerStatus.completes : InnerStatus → Bool
  | .failed _ | .aborted => false
  | .stationary | .penaltyIncrease | .iterationLimit => true

namespace InnerLoop

variable {K σ : Type} {p : Problem K}

section Exit
variable [Mul K] [LT K] [LE K] [DecidableLT K] [DecidableLE K] {o : Options K} {ρ stepNorm : K}
  {l l' : InnerLoop p} {st : Option InnerStatus}

/-- The test at the end of an iteration only enters a value into the window. -/
theorem exit_loop (h : l.exit o ρ stepNorm = (st, l')) : ∃ window, l' = { l with window } := by
  unfold exit at h
  split at h
  · cases h
    exact ⟨l.window, rfl⟩
  · split at h
    · cases h
      exact ⟨_, rfl⟩
    · cases h
      exact ⟨l.window, rfl⟩

/-- A larger penalty is asked for only where there is one. -/
theorem exit_status (h : l.exit o ρ stepNorm = (st, l')) :
    st = none ∨ st = some .stationary ∨ st = some .penaltyIncrease ∧ ρ < o.maxPenalty := by
  unfold exit at h
  split at h
  · cases h
    exact .inr (.inl rfl)
  · split at h
    · rename_i hρ
      generalize Window.push o.window o.eta l.window l.complementarity _ = pushed at h
      obtain ⟨_ | _, window⟩ := pushed
      · cases h
        exact .inl rfl
      · cases h
        exact .inr (.inr ⟨rfl, hρ⟩)
    · cases h
      exact .inl rfl

theorem exit_stationary_iff (h : l.exit o ρ stepNorm = (st, l')) :
    st = some .stationary ↔ l.stationarity ≤ o.stationarityTol ∨ stepNorm ≤ o.stepTol := by
  unfold exit at h
  split at h
  · rename_i hends
    cases h
    simpa using hends
  · rename_i hgoes
    have hno : st ≠ some .stationary := by
      split at h
      · generalize Window.push o.window o.eta l.window l.complementarity _ = pushed at h
        obtain ⟨_ | _, window⟩ := pushed
        · cases h
          exact nofun
        · cases h
          exact nofun
      · cases h
        exact nofun
    exact iff_of_false hno (by simpa using hgoes)

theorem exit_completes {status : InnerStatus} (h : l.exit o ρ stepNorm = (some status, l')) :
    status.completes = true := by
  obtain hst | hst | ⟨hst, -⟩ := exit_status h
  · cases hst
  · cases hst
    rfl
  · cases hst
    rfl

end Exit

variable [Zero K] [One K] [Add K] [Sub K] [Neg K] [Mul K] [Div K] [LT K] [LE K] [DecidableLT K]
  [DecidableLE K] [OfScientific K]

section Step
variable (o : Options K) (ρ : K) (l : InnerLoop p) (total : Nat) (a : Answer K p.vars p.duals)

def moved : InnerLoop p := { l with point := ⟨p.nudged o ρ total l.point.x, l.point.y⟩ }

/-- What the nudge has left of the rise of the merit that the iteration may cause. -/
def allowance : K :=
  p.merit ρ l.point.x + p.meritBudget o ρ l.point.x - p.merit ρ (l.moved o ρ total).point.x

def direction : Vec K p.vars := a.x - (l.moved o ρ total).point.x

def stepLength : K :=
  p.stepLength ρ (l.moved o ρ total).point.x (l.direction o ρ total a) (l.allowance o ρ total)

def stepNorm : K := l.stepLength o ρ total a * (l.direction o ρ total a).norm

def landing : Iterate p :=
  ⟨(l.moved o ρ total).point.x.shift (l.stepLength o ρ total a) (l.direction o ρ total a), a.y⟩

def landed : InnerLoop p :=
  { l with
    point := l.landing o ρ total a
    iterations := l.iterations + 1
    stationarity := p.stationarity ρ (l.landing o ρ total a)
    complementarity := p.complementarity (l.landing o ρ total a).x }

def record (outer qpIterations : Nat) : Record K where
  phase := .inner
  outer := outer
  inner := l.iterations + 1
  total := total + 1
  penalty := ρ
  complementarity := (l.landed o ρ total a).complementarity
  stationarity := (l.landed o ρ total a).stationarity
  objective := p.objective (l.landing o ρ total a).x
  merit := p.merit ρ (l.landing o ρ total a).x
  stepLength := l.stepLength o ρ total a
  stepNorm := l.stepNorm o ρ total a
  qpIterations := qpIterations

end Step

variable [Special K] [BEq K] (host : Host K σ) (o : Options K) (sub : Subproblem p) (ρ : K)

/-- What one iteration can do. Only the last case completes it; a subproblem that fails leaves the
point where it was linearized, with the residuals of the point before. -/
inductive Outcome (l : InnerLoop p) (pr : Progress K σ) : Option InnerStatus → InnerLoop p →
    Progress K σ → Prop
  | aborted {pr'} (check : pr.shouldAbort host o = (true, pr')) : Outcome l pr (some .aborted) l pr'
  | failed {pr₁ pr' s} (check : pr.shouldAbort host o = (false, pr₁))
      (solve : pr₁.solveAt host sub (sub.penalized (l.moved o ρ pr₁.total).point.x ρ)
        (l.moved o ρ pr₁.total).point.x l.point.y = (.error s, pr')) :
      Outcome l pr (some (.failed s)) (l.moved o ρ pr₁.total) pr'
  | stepped {pr₁ pr₂ pr' a st l'} (check : pr.shouldAbort host o = (false, pr₁))
      (solve : pr₁.solveAt host sub (sub.penalized (l.moved o ρ pr₁.total).point.x ρ)
        (l.moved o ρ pr₁.total).point.x l.point.y = (.ok a, pr₂))
      (report : pr' = Progress.emit host o
        (l.record o ρ pr₁.total a pr₂.outer (pr₂.qpIterations - pr₁.qpIterations))
        { pr₂ with total := pr₂.total + 1 })
      (exit : (l.landed o ρ pr₁.total a).exit o ρ (l.stepNorm o ρ pr₁.total a) = (st, l')) :
      Outcome l pr st l' pr'

variable {host o sub ρ}

theorem iterate_outcome {l l' : InnerLoop p} {pr pr' : Progress K σ} {st : Option InnerStatus}
    (h : l.iterate host o sub ρ pr = (st, l', pr')) : Outcome host o sub ρ l pr st l' pr' := by
  unfold iterate at h
  rcases check : pr.shouldAbort host o with ⟨_ | _, pr₁⟩
  · rw [check] at h
    dsimp only at h
    rcases solve : pr₁.solveAt host sub (sub.penalized (l.moved o ρ pr₁.total).point.x ρ)
      (l.moved o ρ pr₁.total).point.x l.point.y with ⟨s | a, pr₂⟩
    · simp only [moved] at solve
      rw [solve] at h
      cases h
      exact .failed check solve
    · have htotal := (Progress.quiet_of_solveAt solve).total
      simp only [moved] at solve
      rw [solve] at h
      simp only [accept, Prod.mk.injEq] at h
      obtain ⟨rfl, rfl, rfl⟩ := h
      refine .stepped check solve ?_ rfl
      rw [record, htotal]
      rfl
  · rw [check] at h
    cases h
    exact .aborted check

/-- Where the subproblem is solved, the test after the step decides how the iteration ends. -/
theorem exit_of_solved {l l' : InnerLoop p} {pr pr₁ pr₂ pr' : Progress K σ}
    {a : Answer K p.vars p.duals} {st : Option InnerStatus}
    (check : pr.shouldAbort host o = (false, pr₁))
    (solve : pr₁.solveAt host sub (sub.penalized (l.moved o ρ pr₁.total).point.x ρ)
      (l.moved o ρ pr₁.total).point.x l.point.y = (.ok a, pr₂))
      (h : l.iterate host o sub ρ pr = (st, l', pr')) :
    (l.landed o ρ pr₁.total a).exit o ρ (l.stepNorm o ρ pr₁.total a) = (st, l') := by
  cases iterate_outcome h with
  | aborted check' => cases check.symm.trans check'
  | failed check' solve' =>
    cases check.symm.trans check'
    cases solve.symm.trans solve'
  | stepped check' solve' report exit =>
    cases check.symm.trans check'
    cases solve.symm.trans solve'
    exact exit

theorem landed_of_none {l l' : InnerLoop p} {pr pr' : Progress K σ}
    (h : l.iterate host o sub ρ pr = (none, l', pr')) :
    ∃ total a window, l' = { l.landed o ρ total a with window } := by
  cases iterate_outcome h with
  | stepped check solve report exit =>
    obtain ⟨window, rfl⟩ := exit_loop exit
    exact ⟨_, _, window, rfl⟩

theorem iterations_of_none {l l' : InnerLoop p} {pr pr' : Progress K σ}
    (h : l.iterate host o sub ρ pr = (none, l', pr')) : l'.iterations = l.iterations + 1 := by
  obtain ⟨total, a, window, rfl⟩ := landed_of_none h
  rfl

variable (host o sub ρ)

inductive Reaches : InnerLoop p → Progress K σ → InnerLoop p → Progress K σ → Prop
  | here {l pr} : Reaches l pr l pr
  | go {l pr l₁ pr₁ l₂ pr₂} (first : l.iterate host o sub ρ pr = (none, l₁, pr₁))
      (rest : Reaches l₁ pr₁ l₂ pr₂) : Reaches l pr l₂ pr₂

/-- A loop goes on from iteration to iteration up to a last one, which ends it by its status or is
the last that the limit allows. -/
theorem loop_ends (left : Nat) (l : InnerLoop p) (pr : Progress K σ) :
    ∃ last pr₁ l' pr', Reaches host o sub ρ l pr last pr₁ ∧ last.iterations ≤ l.iterations + left ∧
      ((∃ st, last.iterate host o sub ρ pr₁ = (some st, l', pr') ∧
          loop host o sub ρ left l pr = (l'.result st, pr')) ∨
        last.iterate host o sub ρ pr₁ = (none, l', pr') ∧ last.iterations = l.iterations + left ∧
          loop host o sub ρ left l pr = (l'.result .iterationLimit, pr')) := by
  fun_induction loop host o sub ρ left l pr with
  | case1 left l pr st l' pr' h =>
    exact ⟨l, pr, l', pr', .here, Nat.le_add_right _ _, .inl ⟨st, h, rfl⟩⟩
  | case2 l pr l' pr' h => exact ⟨l, pr, l', pr', .here, Nat.le_refl _, .inr ⟨h, rfl, rfl⟩⟩
  | case3 l pr l₁ pr₁ h left ih =>
    obtain ⟨last, pr₂, l', pr', hpath, hlimit, hend⟩ := ih
    have hcount := iterations_of_none h
    refine ⟨last, pr₂, l', pr', .go h hpath, by omega, ?_⟩
    obtain hend | ⟨hlast, hleft, hloop⟩ := hend
    · exact .inl hend
    · exact .inr ⟨hlast, by omega, hloop⟩

variable {host o sub ρ}

/-- What the iterations that do not end the loop keep. -/
theorem Reaches.keeps {I : InnerLoop p → Progress K σ → Prop}
    (step : ∀ {l l' pr pr'}, I l pr → l.iterate host o sub ρ pr = (none, l', pr') → I l' pr')
    {l l' : InnerLoop p} {pr pr' : Progress K σ} (h : Reaches host o sub ρ l pr l' pr')
    (hl : I l pr) : I l' pr' := by
  induction h with
  | here => exact hl
  | go first _ ih => exact ih (step hl first)

theorem Reaches.snoc {l l₁ l₂ : InnerLoop p} {pr pr₁ pr₂ : Progress K σ}
    (h : Reaches host o sub ρ l pr l₁ pr₁) (last : l₁.iterate host o sub ρ pr₁ = (none, l₂, pr₂)) :
    Reaches host o sub ρ l pr l₂ pr₂ := by
  induction h with
  | here => exact .go last .here
  | go first _ ih => exact .go first (ih last)

section Run
variable {it : Iterate p} {pr pr' : Progress K σ} {r : InnerResult p}

theorem run_ends (h : run host o sub ρ it pr = (r, pr')) :
    ∃ last pr₁ l, Reaches host o sub ρ (start p ρ it) pr last pr₁ ∧
      last.iterations ≤ o.maxInner - 1 ∧
      (last.iterate host o sub ρ pr₁ = (some r.status, l, pr') ∧ r = l.result r.status ∨
        last.iterate host o sub ρ pr₁ = (none, l, pr') ∧ last.iterations = o.maxInner - 1 ∧
          r = l.result .iterationLimit) := by
  obtain ⟨last, pr₁, l, pr₂, hpath, hlimit, hend⟩ :=
    loop_ends host o sub ρ (o.maxInner - 1) (start p ρ it) pr
  refine ⟨last, pr₁, l, hpath, by simpa [start] using hlimit, ?_⟩
  rw [run] at h
  obtain ⟨st, hiter, hloop⟩ | ⟨hiter, hcount, hloop⟩ := hend
  · rw [hloop] at h
    cases h
    exact .inl ⟨hiter, rfl⟩
  · rw [hloop] at h
    cases h
    exact .inr ⟨hiter, by simpa [start] using hcount, rfl⟩

/-- What every iteration keeps, whether it completes or not, holds where the loop ends. -/
theorem run_invariant {I : InnerLoop p → Progress K σ → Prop}
    (step : ∀ {l l' pr pr' st}, I l pr → l.iterate host o sub ρ pr = (st, l', pr') → I l' pr')
    (h : run host o sub ρ it pr = (r, pr')) (hstart : I (start p ρ it) pr) :
    ∃ l, r = l.result r.status ∧ I l pr' := by
  obtain ⟨last, pr₁, l, hpath, -, ⟨hiter, hr⟩ | ⟨hiter, -, hr⟩⟩ := run_ends h
  · exact ⟨l, hr, step (hpath.keeps step hstart) hiter⟩
  · exact ⟨l, by rw [hr]; rfl, step (hpath.keeps step hstart) hiter⟩

theorem iterate_quiet {pr₀ pr pr' : Progress K σ} {l l' : InnerLoop p} {st : Option InnerStatus}
    (h : Progress.Quiet { pr₀ with total := pr₀.total + l.iterations } pr)
    (hiter : l.iterate host o sub ρ pr = (st, l', pr')) :
    Progress.Quiet { pr₀ with total := pr₀.total + l'.iterations } pr' := by
  cases iterate_outcome hiter with
  | aborted check => exact h.trans (Progress.quiet_of_shouldAbort check)
  | failed check solve =>
    exact (h.trans (Progress.quiet_of_shouldAbort check)).trans (Progress.quiet_of_solveAt solve)
  | stepped check solve report exit =>
    have hall :=
      (h.trans (Progress.quiet_of_shouldAbort check)).trans (Progress.quiet_of_solveAt solve)
    obtain ⟨window, rfl⟩ := exit_loop exit
    rw [report]
    exact ⟨hall.outer, congrArg (· + 1) hall.total, hall.history, hall.started⟩

theorem Reaches.quiet {l : InnerLoop p} (h : Reaches host o sub ρ (start p ρ it) pr l pr') :
    Progress.Quiet { pr with total := pr.total + l.iterations } pr' :=
  h.keeps (I := fun l pr' => Progress.Quiet { pr with total := pr.total + l.iterations } pr')
    iterate_quiet
    (.refl pr)

theorem run_quiet (h : run host o sub ρ it pr = (r, pr')) :
    Progress.Quiet { pr with total := pr.total + r.iterations } pr' := by
  obtain ⟨l, hr, hl⟩ := run_invariant
    (I := fun l pr' => Progress.Quiet { pr with total := pr.total + l.iterations } pr')
    iterate_quiet h (.refl pr)
  rw [hr]
  exact hl

theorem ends_by_status (h : run host o sub ρ it pr = (r, pr')) (hst : r.status ≠ .iterationLimit) :
    ∃ last pr₁ l, Reaches host o sub ρ (start p ρ it) pr last pr₁ ∧
      last.iterate host o sub ρ pr₁ = (some r.status, l, pr') ∧ r = l.result r.status := by
  obtain ⟨last, pr₁, l, hpath, -, hend | ⟨-, -, hr⟩⟩ := run_ends h
  · exact ⟨last, pr₁, l, hpath, hend⟩
  · rw [hr] at hst
    exact absurd rfl hst

/-- The limit is met by an iteration that would let the loop go on. -/
theorem ends_by_limit (h : run host o sub ρ it pr = (r, pr')) (hst : r.status = .iterationLimit) :
    ∃ l, Reaches host o sub ρ (start p ρ it) pr l pr' ∧ r = l.result .iterationLimit ∧
      l.iterations = o.maxInner - 1 + 1 := by
  obtain ⟨last, pr₁, l, hpath, -, ⟨hiter, -⟩ | ⟨hiter, hcount, hr⟩⟩ := run_ends h
  · rw [hst] at hiter
    cases iterate_outcome hiter with
    | stepped check solve report exit =>
      obtain hno | hno | ⟨hno, -⟩ := exit_status exit <;> cases hno
  · exact ⟨l, hpath.snoc hiter, hr, by rw [iterations_of_none hiter, hcount]⟩

/-- The residuals that a stationary end reports are those of the point it returns. -/
theorem residuals_of_stationary (h : run host o sub ρ it pr = (r, pr'))
    (hst : r.status = .stationary) :
    r.stationarity = p.stationarity ρ r.point ∧
      r.complementarity = p.complementarity r.point.x := by
  obtain ⟨last, pr₁, l, -, hiter, hr⟩ := ends_by_status h (by simp [hst])
  rw [hst] at hiter
  cases iterate_outcome hiter with
  | stepped check solve report exit =>
    obtain ⟨window, rfl⟩ := exit_loop exit
    rw [hr]
    exact ⟨rfl, rfl⟩

theorem lt_of_penaltyIncrease (h : run host o sub ρ it pr = (r, pr'))
    (hst : r.status = .penaltyIncrease) :
    ρ < o.maxPenalty := by
  obtain ⟨last, pr₁, l, -, hiter, -⟩ := ends_by_status h (by simp [hst])
  rw [hst] at hiter
  cases iterate_outcome hiter with
  | stepped check solve report exit =>
    obtain hno | hno | ⟨-, hρ⟩ := exit_status exit
    · cases hno
    · cases hno
    · exact hρ

theorem iterations_of_iterationLimit (h : run host o sub ρ it pr = (r, pr')) (hmax : o.maxInner ≠ 0)
    (hst : r.status = .iterationLimit) : r.iterations = o.maxInner := by
  obtain ⟨l, -, hr, hcount⟩ := ends_by_limit h hst
  rw [hr]
  change l.iterations = o.maxInner
  omega

end Run

section Trail
variable (host o sub ρ)

/-- The points of a loop: where it stands, and the point after each iteration that completes. -/
def trail : Nat → InnerLoop p → Progress K σ → List (Vec K p.vars)
  | left, l, pr =>
    match l.iterate host o sub ρ pr with
    | (some status, l', _) => if status.completes then [l.point.x, l'.point.x] else [l.point.x]
    | (none, l', pr') =>
      match left with
      | 0 => [l.point.x, l'.point.x]
      | left + 1 => l.point.x :: trail left l' pr'

theorem trail_head (left : Nat) (l : InnerLoop p) (pr : Progress K σ) :
    (trail host o sub ρ left l pr).head? = some l.point.x := by
  unfold trail
  split
  · split <;> rfl
  · split <;> rfl

variable {host o sub ρ}

theorem iterations_of_some {l l' : InnerLoop p} {pr pr' : Progress K σ} {st : InnerStatus}
    (h : l.iterate host o sub ρ pr = (some st, l', pr')) :
    l'.iterations = l.iterations + if st.completes then 1 else 0 := by
  cases iterate_outcome h with
  | aborted check => rfl
  | failed check solve => rfl
  | stepped check solve report exit =>
    have hst := exit_completes exit
    obtain ⟨window, rfl⟩ := exit_loop exit
    rw [hst]
    rfl

variable (host o sub ρ)

/-- The trail has a point for each iteration counted, and leads to the point of the result if the
last iteration has completed. -/
theorem trail_ends (left : Nat) (l : InnerLoop p) (pr : Progress K σ) :
    l.iterations + (trail host o sub ρ left l pr).length =
      (loop host o sub ρ left l pr).1.iterations + 1 ∧
      ((loop host o sub ρ left l pr).1.status.completes = true →
        (trail host o sub ρ left l pr).getLast? =
          some (loop host o sub ρ left l pr).1.point.x) := by
  fun_induction loop host o sub ρ left l pr with
  | case1 left l pr st l' pr' h =>
    have hcount := iterations_of_some h
    rw [trail, h]
    simp only [result]
    cases hst : st.completes with
    | false => simp [hst, hcount]
    | true => simp [hst, hcount]
  | case2 l pr l' pr' h =>
    rw [trail, h]
    exact ⟨congrArg (· + 1) (iterations_of_none h).symm, fun _ => rfl⟩
  | case3 l pr l' pr' h left ih =>
    obtain ⟨hlength, hlast⟩ := ih
    have hcount := iterations_of_none h
    rw [trail, h]
    refine ⟨?_, fun hst => ?_⟩
    · simp only [List.length_cons]
      omega
    · rw [List.getLast?_cons, hlast hst]
      rfl

end Trail

end InnerLoop

end ComplementarityQP
