import ComplementarityQP.Proofs.Journal
import ComplementarityQP.Proofs.Penalties
import ComplementarityQP.Proofs.Report

/-! What stands behind the status of a run. Main statement: the journal of every run bears its
status out. -/
namespace ComplementarityQP.Run

variable {K σ : Type} [Field K] [LinearOrder K] [Special K] [Root K]

section Evidence
variable (host : Host K σ) (o : Options K) (p : Problem K) (w : WarmStart K) (s : σ)

def LastLevelCalls (n : Nat) : Prop :=
  ∃ sub h r status pr added, Visits host.journaled o p w (s, []) sub h ∧
    h.turn host.journaled o sub = .settled r status pr ∧ r.iterations = n ∧
    pr.events = h.progress.events ++ added ∧ (calls added).length = n ∧
    ∀ call ∈ calls added, Accepted sub call

/-- The evidence for each status, in the solution and in the events of the run. -/
def Evidence (sol : Solution K p.vars p.duals) (events : List (Event K)) : RunStatus → Prop
  | .success => p.complementarity sol.x ≤ o.complementarityTol
  | .initialFailed => sol.stats.outer = 0 ∧ sol.stats.inner = 0 ∧ (calls events).length = 1 ∧
      sol.x.toArray = w.x.getD (Vec.zero p.vars).toArray ∧
        sol.y.toArray = w.y.getD (Vec.zero p.duals).toArray
  | .maxPenalty => sol.stats.finalPenalty = o.maxPenalty ∧
    o.complementarityTol < p.complementarity sol.x
  | .maxIterations => sol.stats.outer = o.maxOuter ∨
      sol.stats.finalPenalty = o.maxPenalty ∧ LastLevelCalls host o p w s o.maxInner
  | .qpFailed =>
      (∃ f, Subproblem.build p host.backend.needsDefinite o = .error f) ∧ calls events = [] ∨
      ∃ sub call, Subproblem.build p host.backend.needsDefinite o = .ok sub ∧
        (calls events).getLast? = some call ∧ Refused sub call
  | .aborted => LastCheck o (host.clock s).1 true events
  | .invalid => calls events = [] ∧ sol.x = Vec.zero _ ∧ sol.y = Vec.zero _

end Evidence

variable [IsStrictOrderedRing K] {host : Host K σ} {o : Options K} {p : Problem K} {w : WarmStart K}
  {s : σ} {r : Solution K p.vars p.duals × σ × List (Event K)}

omit [Root K] [IsStrictOrderedRing K] in
theorem lastCheck_of_finish (e : Ending p) {pr : Progress K (σ × List (Event K))} {started : K}
    {b : Bool} {before check : List (Event K)} (hevents : pr.events = before ++ check)
    (hcheck : Check o started b check) :
    LastCheck o started b (finish host.journaled o e pr).2.2 := by
  obtain ⟨added, hadded, hidle⟩ := events_finish host o e pr
  refine ⟨before, check, added, ?_, hcheck, fun event hmem => (hidle event hmem).2⟩
  rw [hadded, hevents]

omit [IsStrictOrderedRing K] in
theorem evidence_of_unsolved {x0 : Option (Vec K p.vars)} {y0 : Option (Vec K p.duals)}
    {sub : Subproblem p} {st : Option QpStatus} {pr : Progress K (σ × List (Event K))}
    (admitted : Admitted o p w x0 y0)
    (solve : firstSolve host.journaled o sub x0 y0 (firstPenalty o w)
      (.start host.journaled (s, [])) = (.error st, pr)) :
    let r :=
  fail host.journaled o ⟨startPoint x0 y0, firstPenalty o w, sub.shift, .initialFailed⟩ pr
    Evidence host o p w s r.1 r.2.2 .initialFailed := by
  have hquiet := Progress.quiet_of_solveAt solve
  obtain ⟨call, hcall, -, hrefused⟩ := Progress.events_solveAt solve
  refine ⟨hquiet.outer, hquiet.total, ?_, startVector_getD admitted.x _,
    startVector_getD admitted.y _⟩
  rw [calls_of_fail, hcall, calls_append, Refused.calls_eq hrefused]
  rfl

theorem evidence_of_halted (ho : o.Valid) {sub : Subproblem p} {h : Head p (σ × List (Event K))}
    {status : RunStatus} {pr : Progress K (σ × List (Event K))}
    (visits : Visits host.journaled o p w (s, []) sub h)
    (turn : h.turn host.journaled o sub = .halted status pr) :
    let r := finish host.journaled o ⟨h.point, h.penalty, sub.shift, status⟩ pr
    Evidence host o p w s r.1 r.2.2 status := by
  have hquiet := quiet_of_halted turn
  cases turn_cause turn with
  | aborted check =>
    obtain ⟨checked, hchecked, hcheck⟩ := Progress.events_shouldAbort check
    rw [visits.started] at hcheck
    exact lastCheck_of_finish _ hchecked hcheck
  | limit check left =>
    refine .inl ?_
    have hlevels := (visits.onSchedule ho).left
    rw [finish_outer, hquiet.outer]
    omega

theorem evidence_of_settled (ho : o.Valid) {sub : Subproblem p} {h : Head p (σ × List (Event K))}
    {status : RunStatus} {r : InnerResult p} {pr : Progress K (σ × List (Event K))}
    (visits : Visits host.journaled o p w (s, []) sub h)
    (turn : h.turn host.journaled o sub = .settled r status pr) :
    let sol := finish host.journaled o ⟨r.point, h.penalty, sub.shift, status⟩ pr
    Evidence host o p w s sol.1 sol.2.2 status := by
  obtain ⟨earlier, -, hschedule⟩ := (visits.onSchedule ho).schedule
  have hbuild : Subproblem.build p host.backend.needsDefinite o = .ok sub := by
    obtain ⟨first, ⟨admitted, build, solve⟩, hr⟩ := visits
    exact build
  cases turn_cause turn with
  | @settled n pr₁ _ _ _ check left level verdict =>
    have hgrounds := verdict_grounds verdict
    cases status with
    | success => exact complementarity_le_of_success (.settled visits turn) (finish_status _ _ _ _)
    | initialFailed => exact hgrounds.elim
    | maxPenalty =>
      obtain ⟨hstationary, hgap, hmax⟩ := hgrounds
      refine ⟨?_, ?_⟩
      · rw [finish_finalPenalty]
        exact le_antisymm hschedule.high hmax
      · rw [finish_x, ← (InnerLoop.residuals_of_stationary level hstationary).2]
        exact lt_of_not_ge hgap
    | maxIterations =>
      obtain ⟨hlimit, hmax⟩ := hgrounds
      -- The check at the head makes no call, so all calls since the head are those of the level.
      obtain ⟨checked, hchecked, hcheck⟩ := Progress.events_shouldAbort check
      obtain ⟨added, hadded, hcount, hall⟩ := InnerLoop.events_of_iterationLimit level hlimit
      have hiterations := InnerLoop.iterations_of_iterationLimit level ho.limits.2 hlimit
      refine .inr ⟨?_, sub, h, r, .maxIterations, pr, checked ++ added, visits, turn, hiterations,
        ?_, ?_, ?_⟩
      · rw [finish_finalPenalty]
        exact le_antisymm hschedule.high hmax
      · rw [hadded, ← List.append_assoc, ← hchecked]
        rfl
      · rw [calls_append, hcheck.calls_eq, List.nil_append, hcount, hiterations]
      · rw [calls_append, hcheck.calls_eq]
        exact hall
    | qpFailed =>
      obtain ⟨st, hfailed⟩ := hgrounds
      obtain ⟨before, call, hcall, hrefused⟩ := InnerLoop.events_of_failed level hfailed
      refine .inr ⟨sub, call, hbuild, ?_, hrefused⟩
      rw [calls_of_finish, hcall, calls_append, hrefused.calls_eq, List.getLast?_concat]
    | aborted =>
      obtain ⟨before, checked, hchecked, hcheck⟩ := InnerLoop.events_of_aborted level hgrounds
      change Check o pr₁.started true checked at hcheck
      rw [(Progress.quiet_of_shouldAbort check).started, visits.started] at hcheck
      exact lastCheck_of_finish _ hchecked hcheck
    | invalid => exact hgrounds.elim

theorem evidence_of_course (ho : o.Valid) (course : Course host.journaled o p w (s, []) r) :
    Evidence host o p w s r.1 r.2.2 r.1.status := by
  cases course with
  | rejected start => exact ⟨calls_of_fail _ _, rfl, rfl⟩
  | certified hx hy certified => exact Problem.complementarity_le_of_certified certified
  | unbuildable admitted build => exact .inl ⟨⟨_, build⟩, calls_of_fail _ _⟩
  | unsolved admitted build solve => exact evidence_of_unsolved admitted solve
  | halted visits turn =>
    rw [finish_status]
    exact evidence_of_halted ho visits turn
  | settled visits turn =>
    rw [finish_status]
    exact evidence_of_settled ho visits turn

omit [IsStrictOrderedRing K] in
theorem invalid_iff_of_course {r : Solution K p.vars p.duals × σ} (course : Course host o p w s r) :
    r.1.status = .invalid ↔ w.Rejected p := by
  cases course with
  | rejected start => exact iff_of_true rfl (rejected_of_error start)
  | certified hx hy certified => exact iff_of_false nofun (not_rejected_of_ok hx hy)
  | unbuildable admitted build => exact iff_of_false nofun admitted.not_rejected
  | unsolved admitted build solve => exact iff_of_false nofun admitted.not_rejected
  | halted visits turn =>
    refine iff_of_false ?_ visits.not_rejected
    rw [finish_status]
    rintro rfl
    cases turn_cause turn
  | settled visits turn =>
    refine iff_of_false ?_ visits.not_rejected
    rw [finish_status]
    rintro rfl
    cases turn_cause turn with
    | settled check left level verdict => exact verdict_grounds verdict

variable (host p w s)

/-- The status of a run is borne out by what happened in it. -/
theorem status_has_evidence (ho : o.validate = .ok ()) :
    let sol := (runFrom host o p w s).1
    (sol.status = .invalid ↔ w.Rejected p) ∧
    Evidence host o p w s sol (journal host o p w s) sol.status := by
  have hvalid := Options.validate_eq_ok_iff.mp ho
  have hevidence := evidence_of_course hvalid (runFrom_course host.journaled o p w (s, []))
  rw [runFrom_journaled] at hevidence
  exact ⟨invalid_iff_of_course (runFrom_course host o p w s), hevidence⟩

/-- A solver that answers once and then rejects the warm-up problem. -/
theorem status_has_evidence_warmUp :
    Options.default.validate (K := ℚ) = .ok () ∧
    let host := Host.answering [some .uncoupled, none]
    (runFrom host Options.default Problem.warmUp ⟨none, none, none⟩ 0).1.status = .qpFailed ∧
    ∃ sub call,
      (calls (journal host Options.default Problem.warmUp ⟨none, none, none⟩ 0)).getLast? =
      some call ∧
      Refused (p := Problem.warmUp) sub call := by
  have ho := Options.validate_eq_ok_iff.mpr (Options.valid_default (K := ℚ) fun _ => rfl)
  have hstatus : (runFrom (.answering [some .uncoupled, none]) Options.default Problem.warmUp
      ⟨none, none, none⟩ 0).1.status = .qpFailed := by decide +kernel
  have hcalls : (calls (journal (.answering [some .uncoupled, none]) Options.default Problem.warmUp
      ⟨none, none, none⟩ 0)).length = 2 := by decide +kernel
  have hevidence := (status_has_evidence (.answering [some .uncoupled, none]) Problem.warmUp
    ⟨none, none, none⟩ 0 ho).2
  rw [hstatus] at hevidence
  obtain ⟨-, hnone⟩ | ⟨sub, call, -, hlast, hrefused⟩ := hevidence
  · rw [hnone] at hcalls
    cases hcalls
  · exact ⟨ho, hstatus, sub, call, hlast, hrefused⟩

end ComplementarityQP.Run
