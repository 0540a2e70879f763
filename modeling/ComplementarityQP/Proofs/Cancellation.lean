import ComplementarityQP.Proofs.Exact
import ComplementarityQP.Proofs.Token

/-! Runs that are asked to stop. Main statement: once its token is set, a run starts no call but its
first, and it ends at the point that it has just come to. -/
namespace ComplementarityQP

variable {K σ : Type}

section Records
variable [LE K] (o : Options K) (r : Record K)

def Record.EndsLevel : Prop := r.stationarity ≤ o.stationarityTol ∨ r.stepNorm ≤ o.stepTol

def Record.EndsRun : RunStatus → Prop
  | .success => r.EndsLevel o ∧ r.complementarity ≤ o.complementarityTol
  | .maxPenalty => r.EndsLevel o ∧ ¬r.complementarity ≤ o.complementarityTol ∧
    o.maxPenalty ≤ r.penalty
  | .maxIterations => ¬r.EndsLevel o ∧ o.maxInner ≤ r.inner ∧ o.maxPenalty ≤ r.penalty
  | _ => False

end Records

section Closes
variable [LT K] [LE K] {o : Options K} {r : Record K}

namespace InnerLoop

/-- How a level ends after an alarm, by the record of its last iteration. -/
def Closes (o : Options K) (r : Record K) : InnerStatus → Prop
  | .aborted => ¬r.EndsLevel o ∧ r.inner < o.maxInner
  | .stationary => r.EndsLevel o
  | .penaltyIncrease => ¬r.EndsLevel o ∧ r.penalty < o.maxPenalty
  | .iterationLimit => ¬r.EndsLevel o ∧ o.maxInner ≤ r.inner
  | .failed _ => False

theorem Closes.eq_stationary {st : InnerStatus} (h : Closes o r st) (hends : r.EndsLevel o) :
    st = .stationary := by
  cases st with
  | stationary => rfl
  | failed s => exact h.elim
  | _ => exact absurd hends h.1

/-- The loop asks for a larger penalty only below the largest one. -/
theorem Closes.eq_iterationLimit {st : InnerStatus} (h : Closes o r st)
    (hle : ∀ a b : K, a ≤ b → ¬b < a) (hgoes : ¬r.EndsLevel o) (hlast : o.maxInner ≤ r.inner)
    (hmax : o.maxPenalty ≤ r.penalty) :
    st = .iterationLimit := by
  cases st with
  | iterationLimit => rfl
  | failed s => exact h.elim
  | stationary => exact absurd h hgoes
  | aborted => exact absurd hlast (Nat.not_le_of_lt h.2)
  | penaltyIncrease => exact absurd h.2 (hle _ _ hmax)

end InnerLoop

namespace Run

section Verdict
variable [DecidableLE K] {p : Problem K} {ρ : K} {res : InnerResult p} {status : RunStatus}
  (hpenalty : r.penalty = ρ) (hcomplementarity : r.complementarity = res.complementarity)
  (hcloses : InnerLoop.Closes o r res.status)
include hpenalty hcomplementarity hcloses

/-- A level that ends after an alarm ends the run as its last record does, or by the abort. -/
theorem endsRun_of_verdict (h : verdict o ρ res = some status) :
    status = .aborted ∨ r.EndsRun o status := by
  have hgrounds := verdict_grounds h
  cases status with
  | success =>
    obtain ⟨hst, hsmall⟩ := hgrounds
    rw [hst] at hcloses
    exact .inr ⟨hcloses, hcomplementarity ▸ hsmall⟩
  | maxPenalty =>
    obtain ⟨hst, hlarge, hmax⟩ := hgrounds
    rw [hst] at hcloses
    exact .inr ⟨hcloses, hcomplementarity ▸ hlarge, hpenalty ▸ hmax⟩
  | maxIterations =>
    obtain ⟨hst, hmax⟩ := hgrounds
    rw [hst] at hcloses
    exact .inr ⟨hcloses.1, hcloses.2, hpenalty ▸ hmax⟩
  | qpFailed =>
    obtain ⟨st, hst⟩ := hgrounds
    rw [hst] at hcloses
    exact hcloses.elim
  | aborted => exact .inl rfl
  | initialFailed => exact hgrounds.elim
  | invalid => exact hgrounds.elim

/-- The other way round, where comparisons do not contradict each other. -/
theorem verdict_of_endsRun (hle : ∀ a b : K, a ≤ b → ¬b < a) (h : r.EndsRun o status) :
    verdict o ρ res = some status := by
  subst hpenalty
  cases status with
  | success =>
    obtain ⟨hends, hsmall⟩ := h
    rw [verdict, hcloses.eq_stationary hends, ← hcomplementarity]
    exact if_pos hsmall
  | maxPenalty =>
    obtain ⟨hends, hlarge, hmax⟩ := h
    rw [verdict, hcloses.eq_stationary hends, ← hcomplementarity]
    exact (if_neg hlarge).trans (if_pos hmax)
  | maxIterations =>
    obtain ⟨hgoes, hlast, hmax⟩ := h
    rw [verdict, hcloses.eq_iterationLimit hle hgoes hlast hmax]
    exact if_pos hmax
  | _ => exact h.elim

end Verdict

end Run

end Closes

namespace Run

section Close
variable [Zero K] [Add K] [Sub K] [Neg K] [Mul K] [LT K] [LE K] [DecidableLT K] [DecidableLE K]
  [OfScientific K] [Special K] {p : Problem K} {host : Host K σ} {token : σ → Bool} {s : σ}
  {o : Options K} {before : List (Event K)} {r : Record K} {e : Ending p}
  {pr : Progress K (σ × List (Event K))}

omit [LE K] [DecidableLE K] [Special K] in
theorem alarm_of_close {kind : Stationarity} {stationarity : K}
    (halarm : Alarm host token s (close host.journaled o e kind stationarity pr).2.2 before r) :
    Alarm host token s pr.events before r := by
  change Alarm host token s (Progress.events (pr.emit host.journaled o _) ++ [.timed _]) before
    r at halarm
  obtain halarm | ⟨hno, -⟩ := Progress.alarm_of_emit (halarm.of_append (by simp [Event.isInner]))
  · exact halarm
  · cases hno

theorem alarm_of_finish (halarm : Alarm host token s (finish host.journaled o e pr).2.2 before r) :
    Alarm host token s pr.events before r := by
  unfold finish at halarm
  split at halarm
  · exact alarm_of_close halarm
  · exact alarm_of_close halarm

omit [LE K] [DecidableLE K] [Special K] in
theorem guarded_close (hg : Guarded host token s pr.events) (kind : Stationarity)
    (stationarity : K) :
    Guarded host token s (close host.journaled o e kind stationarity pr).2.2 := by
  obtain ⟨added, hadded, hidle⟩ := events_close host o e kind stationarity pr
  rw [hadded]
  exact hg.append fun e he => (hidle e he).1

theorem guarded_finish (hg : Guarded host token s pr.events) :
    Guarded host token s (finish host.journaled o e pr).2.2 := by
  obtain ⟨added, hadded, hidle⟩ := events_finish host o e pr
  rw [hadded]
  exact hg.append fun e he => (hidle e he).1

end Close

end Run

variable [Zero K] [One K] [Add K] [Sub K] [Neg K] [Mul K] [Div K] [LT K] [LE K] [DecidableLT K]
  [DecidableLE K] [OfScientific K] [Special K] [BEq K]

/-- The point that the record of an inner iteration tells of, after these events: as far as its step
goes on the way from where the solver was asked to its answer. -/
inductive Landed (p : Problem K) : List (Event K) → Record K → Iterate p → Prop
  | mk {earlier : List (Event K)} {qp : Qp K p.vars p.duals} {x : Vec K p.vars} {y : Vec K p.duals}
      {a : Answer K p.vars p.duals} {r : Record K} :
      Landed p (earlier ++ [.called qp (some ⟨x.toArray, y.toArray⟩) (.ok a)]) r
        ⟨x.shift r.stepLength (a.x - x), a.y⟩

variable {p : Problem K} {host : Host K σ} {token : σ → Bool} (htoken : host.Token token) {s : σ}
  {o : Options K} {sub : Subproblem p} {before : List (Event K)} {r : Record K}

namespace InnerLoop
variable {ρ : K} {l l' : InnerLoop p} {pr pr' : Progress K (σ × List (Event K))}
  {st : Option InnerStatus}

structure Tells (ρ : K) (before : List (Event K)) (r : Record K) (l : InnerLoop p) : Prop where
  landed : Landed p before r l.point
  penalty : r.penalty = ρ
  inner : r.inner = l.iterations
  begun : 0 < r.inner
  complementarity : r.complementarity = l.complementarity

section Iterate
include htoken

theorem heeds_iterate (hh : pr.Heeds host token s)
    (h : l.iterate host.journaled o sub ρ pr = (st, l', pr')) :
    pr'.Heeds host token s := by
  cases iterate_outcome h with
  | aborted check => exact hh.shouldAbort check
  | failed check solve => exact (hh.goes htoken check solve).1
  | @stepped pr₁ pr₂ _ a _ _ check solve report exit =>
    have hcounted : Progress.Heeds host token s { pr₂ with total := pr₂.total + 1 } :=
      (hh.goes htoken check solve).1.congr rfl
    rw [report]
    exact hcounted.emit _

/-- An iteration that is begun after an alarm is aborted. Otherwise the alarm is for the iteration
itself. -/
theorem alarm_of_iterate (hh : pr.Heeds host token s)
    (h : l.iterate host.journaled o sub ρ pr = (st, l', pr'))
    (halarm : Alarm host token s pr'.events before r) :
    st = some .aborted ∧ l' = l ∧ Alarm host token s pr.events before r ∨
      Tells ρ before r l' ∧ (st = some .stationary ∧ r.EndsLevel o ∨
        ¬r.EndsLevel o ∧ (st = none ∨ st = some .penaltyIncrease ∧ ρ < o.maxPenalty)) := by
  cases iterate_outcome h with
  | aborted check => exact .inl ⟨rfl, rfl, Progress.alarm_of_shouldAbort check halarm⟩
  | failed check solve => exact absurd halarm ((hh.goes htoken check solve).2 before r)
  | @stepped pr₁ pr₂ _ a _ _ check solve report exit =>
    -- The check has passed, so no record before has set the token: the alarm is for the one just
    -- shown.
    have hcalm := (hh.goes htoken check solve).2
    have hstationary := exit_stationary_iff exit
    have hstatus := exit_status exit
    rw [report] at halarm
    obtain halarm | ⟨-, rfl, rfl⟩ := Progress.alarm_of_emit halarm
    · exact absurd halarm (hcalm before r)
    · have hends :
        (l.record o ρ pr₁.total a pr₂.outer (pr₂.qpIterations - pr₁.qpIterations)).EndsLevel o ↔
          st = some .stationary := hstationary.symm
      obtain ⟨window, rfl⟩ := exit_loop exit
      refine .inr ⟨⟨?_, rfl, rfl, Nat.succ_pos _, rfl⟩, ?_⟩
      · change Landed p pr₂.events _ _
        rw [Progress.events_of_solved solve]
        exact .mk
      · rw [hends]
        obtain rfl | rfl | ⟨rfl, hρ⟩ := hstatus
        · exact .inr ⟨nofun, .inl rfl⟩
        · exact .inl ⟨rfl, rfl⟩
        · exact .inr ⟨nofun, .inr ⟨rfl, hρ⟩⟩

end Iterate

variable {it : Iterate p} {res : InnerResult p}

section Run
include htoken

theorem heeds_run (hh : pr.Heeds host token s) (h : run host.journaled o sub ρ it pr = (res, pr')) :
    pr'.Heeds host token s := by
  obtain ⟨l, -, hl⟩ :=
    run_invariant (I := fun _ pr => pr.Heeds host token s) (heeds_iterate htoken) h hh
  exact hl

theorem alarm_of_run (hh : pr.Heeds host token s) (hcalm : pr.Calm host token s)
    (h : run host.journaled o sub ρ it pr = (res, pr'))
    (halarm : Alarm host token s pr'.events before r) :
    Landed p before r res.point ∧ r.penalty = ρ ∧ r.complementarity = res.complementarity ∧
      Closes o r res.status := by
  obtain ⟨last, pr₁, l, hpath, hlimit, hend⟩ := run_ends h
  -- On the way to the last iteration, an alarm is for the point where the loop stands.
  have hlast : pr₁.Heeds host token s ∧
      ∀ before r, Alarm host token s pr₁.events before r → Tells ρ before r last ∧
      ¬r.EndsLevel o := by
    refine hpath.keeps (I := fun l pr => pr.Heeds host token s ∧
      ∀ before r, Alarm host token s pr.events before r → Tells ρ before r l ∧ ¬r.EndsLevel o) ?_
      ⟨hh, fun before r halarm => absurd halarm (hcalm before r)⟩
    rintro l l' pr pr' ⟨hh, -⟩ hiter
    refine ⟨heeds_iterate htoken hh hiter, fun before r halarm => ?_⟩
    obtain ⟨hno, -⟩ | ⟨htells, ⟨hno, -⟩ | ⟨hgoes, -⟩⟩ := alarm_of_iterate htoken hh hiter halarm
    · cases hno
    · cases hno
    · exact ⟨htells, hgoes⟩
  obtain ⟨hiter, hres⟩ | ⟨hiter, hcount, hres⟩ := hend
  · have hpoint : res.point = l.point := by rw [hres]; rfl
    have hcomplementarity : res.complementarity = l.complementarity := by rw [hres]; rfl
    rw [hpoint, hcomplementarity]
    obtain ⟨hst, rfl, hearlier⟩ | ⟨htells, hexit⟩ := alarm_of_iterate htoken hlast.1 hiter halarm
    · obtain ⟨htells, hgoes⟩ := hlast.2 before r hearlier
      refine ⟨htells.landed, htells.penalty, htells.complementarity, ?_⟩
      have hinner := htells.inner
      have hbegun := htells.begun
      rw [Option.some.inj hst]
      exact ⟨hgoes, by omega⟩
    · refine ⟨htells.landed, htells.penalty, htells.complementarity, ?_⟩
      obtain ⟨hst, hends⟩ | ⟨hgoes, hst | ⟨hst, hρ⟩⟩ := hexit
      · rw [Option.some.inj hst]
        exact hends
      · cases hst
      · rw [Option.some.inj hst]
        exact ⟨hgoes, htells.penalty ▸ hρ⟩
  · obtain ⟨hno, -⟩ | ⟨htells, ⟨hno, -⟩ | ⟨hgoes, -⟩⟩ :=
      alarm_of_iterate htoken hlast.1 hiter halarm
    · cases hno
    · cases hno
    · have hinner := htells.inner
      have hstep := iterations_of_none hiter
      rw [hres]
      exact ⟨htells.landed, htells.penalty, htells.complementarity, hgoes, by omega⟩

end Run

end InnerLoop

namespace Run

/-- At the head of the outer loop an alarm is for the point of the head, and does not end the
run. -/
structure Head.Heard (host : Host K σ) (token : σ → Bool) (s : σ) (o : Options K)
    (h : Head p (σ × List (Event K))) :
    Prop where
  heeds : h.progress.Heeds host token s
  alarm {before : List (Event K)} {r : Record K} : Alarm host token s h.progress.events before r →
    Landed p before r h.point ∧ ((∀ a b : K, a ≤ b → ¬b < a) → ∀ status, ¬r.EndsRun o status)

section Heads
variable {h : Head p (σ × List (Event K))}
include htoken

theorem turn_of_token (hset : token h.progress.state.1 = true) {t : Turn p (σ × List (Event K))}
    (ht : h.turn host.journaled o sub = t) : ∃ pr, t = .halted .aborted pr := by
  have hstops {pr} : h.progress.shouldAbort host.journaled o ≠ (false, pr) := by
    intro check
    have hunset := (Progress.token_of_goes htoken check).1
    cases hset.symm.trans hunset
  cases turn_cause ht with
  | aborted check => exact ⟨_, rfl⟩
  | limit check left => exact absurd check hstops
  | settled check left level verdict => exact absurd check hstops
  | raised check left level verdict => exact absurd check hstops

section Level
variable {pr₁ pr : Progress K (σ × List (Event K))} {res : InnerResult p}
  (hh : h.Heard host token s o) (check : h.progress.shouldAbort host.journaled o = (false, pr₁))
  (level : InnerLoop.run host.journaled o sub h.penalty h.point
    { pr₁ with outer := pr₁.outer + 1 } = (res, pr))
include hh check level

theorem Head.Heard.heeds_level : pr.Heeds host token s := by
  have hchecked := hh.heeds.shouldAbort check
  have hbegun : Progress.Heeds host token s { pr₁ with outer := pr₁.outer + 1 } :=
    hchecked.congr rfl
  exact InnerLoop.heeds_run htoken hbegun level

theorem Head.Heard.alarm_level (halarm : Alarm host token s pr.events before r) :
    Landed p before r res.point ∧ r.penalty = h.penalty ∧ r.complementarity = res.complementarity ∧
      InnerLoop.Closes o r res.status := by
  have hchecked := hh.heeds.shouldAbort check
  have hbegun : Progress.Heeds host token s { pr₁ with outer := pr₁.outer + 1 } :=
    hchecked.congr rfl
  exact InnerLoop.alarm_of_run htoken hbegun
    (hbegun.calm htoken (Progress.token_of_goes htoken check).2) level halarm

end Level

theorem Head.Heard.step (hh : h.Heard host token s o) {h' : Head p (σ × List (Event K))}
    (ht : h.turn host.journaled o sub = .raised h') : h'.Heard host token s o := by
  cases turn_cause ht with
  | @raised n pr₁ res pr check left level verdict =>
    have hlevel := hh.heeds_level htoken check level
    have hraised : Progress.Heeds host token s
        { pr with history := pr.history ++ [raise o h.penalty] } :=
      hlevel.congr rfl
    refine ⟨hraised.emit _, fun halarm => ?_⟩
    obtain halarm | ⟨hno, -⟩ := Progress.alarm_of_emit halarm
    · obtain ⟨hlanded, hpenalty, hcomplementarity, hcloses⟩ :=
        hh.alarm_level htoken check level halarm
      refine ⟨hlanded, fun hle status hends => ?_⟩
      have hsome := verdict_of_endsRun hpenalty hcomplementarity hcloses hle hends
      rw [verdict] at hsome
      cases hsome
    · cases hno

theorem heeds_first {x0 : Option (Vec K p.vars)} {y0 : Option (Vec K p.duals)}
    {pr : Progress K (σ × List (Event K))}
    {answer : Except (Option QpStatus) (Answer K p.vars p.duals)} {ρ : K}
    (solve : firstSolve host.journaled o sub x0 y0 ρ (.start host.journaled (s, [])) =
      (answer, pr)) :
    pr.Heeds host token s ∧ pr.Calm host token s := by
  obtain ⟨hstart, hcalm⟩ := Progress.heeds_start host token s
  obtain ⟨begun, hstate, solve⟩ : ∃ begun : Progress K (σ × List (Event K)),
      begun.state = (Progress.start host.journaled (s, [])).state ∧ begun.solveAt host.journaled sub
        (firstQp o sub x0 y0 ρ) (startPoint x0 y0).x (startPoint x0 y0).y = (answer, pr) := by
    refine ⟨_, ?_, solve⟩
    rfl
  refine ⟨(hstart.congr hstate).solveAt (fun hset => ?_) solve, (hcalm.congr hstate).solveAt solve⟩
  rw [hstate] at hset
  rw [Progress.events, hstate]
  exact ⟨rfl, (htoken.clock s).symm.trans hset⟩

variable [Root K] {w : WarmStart K}

theorem Begins.heard (hb : Begins host.journaled o p w (s, []) sub h) : h.Heard host token s o := by
  cases hb with
  | @mk x0 y0 sub a pr admitted build solve =>
    obtain ⟨hheeds, hcalm⟩ := heeds_first htoken solve
    have hcounted : Progress.Heeds host token s { pr with total := pr.total + 1 } :=
      hheeds.congr rfl
    refine ⟨hcounted.emit _, fun halarm => ?_⟩
    obtain halarm | ⟨hno, -⟩ := Progress.alarm_of_emit halarm
    · exact absurd halarm (hcalm _ _)
    · cases hno

theorem Visits.heard (hv : Visits host.journaled o p w (s, []) sub h) : h.Heard host token s o := by
  obtain ⟨first, hb, hr⟩ := hv
  exact hr.invariant (fun hh ht => hh.step htoken ht) (hb.heard htoken)

/-- A run that is started with the token set comes to its outer loop, if at all, and no further. -/
theorem Visits.of_token (hset : token s = true) (hv : Visits host.journaled o p w (s, []) sub h) :
    h.progress.outer = 0 ∧ token h.progress.state.1 = true := by
  obtain ⟨first, hb, hr⟩ := hv
  have hfirst : token first.progress.state.1 = true := by
    rw [(hb.heard htoken).heeds.state]
    exact htoken.replay hset _
  cases hr with
  | here =>
    cases hb with
    | mk admitted build solve => exact ⟨(Progress.quiet_of_solveAt solve).outer, hfirst⟩
  | go next rest =>
    -- The first head halts, so the run comes to no other.
    obtain ⟨pr, hno⟩ := turn_of_token htoken hfirst next
    cases hno

end Heads

section Course
variable [Root K] {w : WarmStart K} {out : Solution K p.vars p.duals × σ × List (Event K)}
include htoken

theorem guarded_of_course (course : Course host.journaled o p w (s, []) out) :
    Guarded host token s out.2.2 := by
  have hstart := (Progress.heeds_start host token s).1.guarded
  cases course with
  | rejected start => exact guarded_close hstart _ _
  | certified hx hy certified => exact guarded_close hstart _ _
  | unbuildable admitted build => exact guarded_close hstart _ _
  | unsolved admitted build solve => exact guarded_close (heeds_first htoken solve).1.guarded _ _
  | halted visits turn =>
    have hheard := visits.heard htoken
    cases turn_cause turn with
    | aborted check => exact guarded_finish (hheard.heeds.shouldAbort check).guarded
    | limit check left => exact guarded_finish (hheard.heeds.shouldAbort check).guarded
  | settled visits turn =>
    cases turn_cause turn with
    | settled check left level verdict =>
      exact guarded_finish ((visits.heard htoken).heeds_level htoken check level).guarded

theorem outcome_of_token (hset : token s = true)
    (course : Course host.journaled o p w (s, []) out) :
    out.1.stats.outer = 0 ∧
      (out.1.status = .aborted ∨ out.1.status = .invalid ∨ out.1.status = .initialFailed ∨
        out.1.status = .qpFailed ∧
          (∃ f, Subproblem.build p host.backend.needsDefinite o = .error f) ∧ calls out.2.2 = [] ∨
        out.1.status = .success ∧ w.Certified o p) := by
  cases course with
  | rejected start => exact ⟨rfl, .inr (.inl rfl)⟩
  | certified hx hy certified =>
    exact ⟨rfl, .inr (.inr (.inr (.inr ⟨rfl, certified_of_ok hx hy certified⟩)))⟩
  | unbuildable admitted build =>
    exact ⟨rfl, .inr (.inr (.inr (.inl ⟨rfl, ⟨_, build⟩, calls_of_fail _ _⟩)))⟩
  | unsolved admitted build solve =>
    exact ⟨(Progress.quiet_of_solveAt solve).outer, .inr (.inr (.inl rfl))⟩
  | halted visits turn =>
    obtain ⟨houter, hhead⟩ := visits.of_token htoken hset
    have hquiet := quiet_of_halted turn
    obtain ⟨pr, hhalted⟩ := turn_of_token htoken hhead turn
    cases hhalted
    refine ⟨?_, .inl ?_⟩
    · rw [finish_outer, hquiet.outer, houter]
    · rw [finish_status]
  | settled visits turn =>
    obtain ⟨-, hhead⟩ := visits.of_token htoken hset
    obtain ⟨pr, hno⟩ := turn_of_token htoken hhead turn
    cases hno

theorem outcome_of_alarm (course : Course host.journaled o p w (s, []) out)
    (halarm : Alarm host token s out.2.2 before r) :
    (∃ it, Landed p before r it ∧ out.1.x = it.x ∧
      out.1.y = if out.1.status = .success then p.transformDuals r.penalty it.x it.y else it.y) ∧
    (out.1.status = .aborted ∨ r.EndsRun o out.1.status) ∧
    ((∀ a b : K, a ≤ b → ¬b < a) → ∀ status, r.EndsRun o status → out.1.status = status) := by
  have hcalm := (Progress.heeds_start host token s).2
  cases course with
  | rejected start => exact absurd (alarm_of_close halarm) (hcalm _ _)
  | certified hx hy certified => exact absurd (alarm_of_close halarm) (hcalm _ _)
  | unbuildable admitted build => exact absurd (alarm_of_close halarm) (hcalm _ _)
  | unsolved admitted build solve =>
    exact absurd (alarm_of_close halarm) ((heeds_first htoken solve).2 _ _)
  | @halted sub h status pr visits turn =>
    have hheard := visits.heard htoken
    have hhead := alarm_of_finish halarm
    cases turn_cause turn with
    | aborted check =>
      obtain ⟨hlanded, hgoes⟩ := hheard.alarm (Progress.alarm_of_shouldAbort check hhead)
      exact ⟨⟨h.point, hlanded, rfl, rfl⟩, .inl rfl,
        fun hle status hends => absurd hends (hgoes hle status)⟩
    | limit check left =>
      have hunset := (Progress.token_of_goes htoken check).2
      exact absurd hhead ((hheard.heeds.shouldAbort check).calm htoken hunset _ _)
  | @settled sub h res status pr visits turn =>
    have hheard := visits.heard htoken
    cases turn_cause turn with
    | settled check left level verdict =>
      obtain ⟨hlanded, hpenalty, hcomplementarity, hcloses⟩ :=
        hheard.alarm_level htoken check level (alarm_of_finish halarm)
      rw [finish_status, finish_x, finish_y]
      refine ⟨⟨res.point, hlanded, rfl, by rw [hpenalty]⟩,
        endsRun_of_verdict hpenalty hcomplementarity hcloses verdict, fun hle status' hends => ?_⟩
      have hverdict := verdict_of_endsRun hpenalty hcomplementarity hcloses hle hends
      exact Option.some.inj (verdict.symm.trans hverdict)

end Course

end Run

/-- Once its token is set, a run starts no call, but for its first if the token was set from the
start. It then ends before its first level. If the token is set while the record of an inner
iteration is shown, the run ends at the point of that record: by the abort, unless the record ends
it by itself. -/
theorem Run.token_stops_run [Root K] (host : Host K σ) (token : σ → Bool)
    (htoken : host.Token token) (o : Options K) (p : Problem K) (w : WarmStart K) (s : σ) :
    let sol := (runFrom host o p w s).1
    let events := journal host o p w s
    (∀ before call, before ++ [call] <+: events → call.isCall = true →
      token (host.replay s before) = true →
      calls before = [] ∧ token s = true) ∧
    (token s = true → sol.stats.outer = 0 ∧
      (sol.status = .aborted ∨ sol.status = .invalid ∨ sol.status = .initialFailed ∨
        sol.status = .qpFailed ∧ (∃ f, Subproblem.build p host.backend.needsDefinite o = .error f) ∧
        calls events = [] ∨
        sol.status = .success ∧ w.Certified o p)) ∧
    (∀ before r, before ++ [.shown r] <+: events → r.phase = .inner →
      token (host.replay s (before ++ [.shown r])) = true →
      (∃ it, Landed p before r it ∧ sol.x = it.x ∧
        sol.y = if sol.status = .success then p.transformDuals r.penalty it.x it.y else it.y) ∧
      (sol.status = .aborted ∨ r.EndsRun o sol.status) ∧
      ((∀ a b : K, a ≤ b → ¬b < a) → ∀ status, r.EndsRun o status → sol.status = status)) := by
  have course := runFrom_course host.journaled o p w (s, [])
  have houtcome (hset : token s = true) := outcome_of_token htoken hset course
  have halarm (before r) (h : Alarm host token s (journal host o p w s) before r) :=
    outcome_of_alarm htoken course h
  rw [runFrom_journaled] at houtcome
  rw [runFrom_journaled] at halarm
  exact ⟨guarded_of_course htoken course, houtcome,
    fun before r hshown hinner hset => halarm before r ⟨hshown, hinner, hset⟩⟩

/-- A solver that answers with the given lines, and an observer who asks to stop at the first record
of an inner iteration. -/
def Host.interrupted (lines : List (Option (Backend.Line ℚ))) : Host ℚ (Nat × Bool) where
  backend := (Backend.scripted true lines).within Prod.fst fun calls t => (calls, t.2)
  observe r t := (t.1, t.2 || decide (r.phase = .inner))
  cancelled t := (t.2, t)
  clock t := (0, t)

theorem Host.interrupted_token (lines : List (Option (Backend.Line ℚ))) :
    (Host.interrupted lines).Token Prod.snd where
  solve _ _ _ := rfl
  observe r t h := by simp [interrupted, h]
  cancelled _ := ⟨rfl, rfl⟩
  clock _ := rfl

/-- Asked to stop on the way to the solution of the warm-up problem, the run stays where the first
inner iteration has brought it. -/
theorem Run.token_stops_run_warmUp :
    let host := Host.interrupted [some .uncoupled, some ⟨#[1, 0], #[0, -2], .solved, 1⟩]
    let o : Options ℚ := { Options.default with verbosity := .inner }
    let sol := (runFrom host o Problem.warmUp ⟨none, none, none⟩ (0, false)).1
    host.Token Prod.snd ∧ sol.status = .aborted ∧ sol.x.toArray = #[1, 199 / 200] ∧
      (∃ before r it, before ++ [.shown r] <+: journal host o Problem.warmUp ⟨none, none, none⟩
      (0, false) ∧
        r.phase = .inner ∧ Landed Problem.warmUp before r it ∧ sol.x = it.x ∧ sol.y = it.y) ∧
      (runFrom host o Problem.warmUp ⟨none, none, none⟩ (0, true)).1.stats.outer = 0 := by
  intro host o sol
  have htoken := Host.interrupted_token [some .uncoupled, some ⟨#[1, 0], #[0, -2], .solved, 1⟩]
  have hend : sol.status = .aborted ∧ sol.x.toArray = #[1, 199 / 200] := by decide +kernel
  obtain ⟨hstatus, hx⟩ := hend
  obtain ⟨-, -, halarm⟩ :=
    token_stops_run host Prod.snd htoken o Problem.warmUp ⟨none, none, none⟩ (0, false)
  obtain ⟨-, hset, -⟩ :=
    token_stops_run host Prod.snd htoken o Problem.warmUp ⟨none, none, none⟩ (0, true)
  refine ⟨htoken, hstatus, hx, ?_, (hset rfl).1⟩
  -- The seventh event is the record of the first inner iteration.
  generalize hevents : journal host o Problem.warmUp ⟨none, none, none⟩ (0, false) =
    events at halarm
  have hseventh : (events[6]?).any Event.isInner = true ∧
      (host.replay (0, false) (events.take 7)).2 = true := by
    rw [← hevents]
    decide +kernel
  obtain ⟨hany, hreplay⟩ := hseventh
  obtain ⟨e, he, hinner⟩ : ∃ e, events[6]? = some e ∧
    e.isInner = true := by simpa [Option.any_eq_true] using hany
  cases e with
  | shown r =>
    have htake : events.take 6 ++ [.shown r] = events.take 7 := by
      rw [show events.take 7 = events.take 6 ++ (events[6]?).toList from List.take_add_one, he]
      rfl
    have hshown : events.take 6 ++ [.shown r] <+: events := htake ▸ List.take_prefix 7 events
    have hphase : r.phase = .inner := by simpa [Event.isInner] using hinner
    obtain ⟨⟨it, hlanded, hix, hiy⟩, -⟩ := halarm _ r hshown hphase (by rw [htake]; exact hreplay)
    refine ⟨_, r, it, hevents ▸ hshown, hphase, hlanded, hix, hiy.trans ?_⟩
    rw [if_neg]
    exact fun hno => by cases hstatus.symm.trans hno
  | _ => cases hinner

end ComplementarityQP
