import ComplementarityQP.Proofs.Exact
import ComplementarityQP.Proofs.Journal
import ComplementarityQP.Proofs.Options

/-! The last status of the solver that a run has on record. Main statement: after a failed
subproblem it is that of the call that has failed, except that a rejected call leaves the status of
the call before it. -/
namespace ComplementarityQP

variable {K σ : Type} [Zero K] [One K] [Add K] [Sub K] [Neg K] [Mul K] [Div K] [LT K] [LE K]
  [DecidableLT K] [DecidableLE K] [OfScientific K] [Special K] [BEq K] {p : Problem K}
  {host : Host K σ} {o : Options K} {sub : Subproblem p}

/-- The call fails the subproblem with this status: that of an answer that is no solution, unbounded
for a solution along a ray, and none for a program that is rejected. -/
inductive FailsAs (sub : Subproblem p) : Option QpStatus → Event K → Prop
  | rejected {n m : Nat} {qp : Qp K n m} {hint : Option (Hint K)} {fault : Fault K} :
      FailsAs sub none (.called qp hint (.error fault))
  | unsolved {n m : Nat} {qp : Qp K n m} {hint : Option (Hint K)} {a : Answer K n m}
    (status : a.status ≠ .solved) :
      FailsAs sub (some a.status) (.called qp hint (.ok a))
  | ray {qp : Qp K p.vars p.duals} {x : Vec K p.vars} {y : Vec K p.duals}
    {a : Answer K p.vars p.duals}
      (solved : a.status = .solved) (ray : sub.isRay qp x (a.x - x) = true) :
      FailsAs sub (some .unbounded) (.called qp (some ⟨x.toArray, y.toArray⟩) (.ok a))

theorem FailsAs.ne_solved {st : Option QpStatus} {call : Event K} (h : FailsAs sub st call) :
    st ≠ some .solved := by
  cases h with
  | rejected => exact nofun
  | unsolved status => exact fun h => status (Option.some.inj h)
  | ray solved ray => exact nofun

namespace Progress
variable {pr pr' : Progress K (σ × List (Event K))}

/-- The status of a call goes on record if it has one. -/
theorem lastQp_of_solveAt {qp : Qp K p.vars p.duals} {x : Vec K p.vars} {y : Vec K p.duals}
    {answer : Except (Option QpStatus) (Answer K p.vars p.duals)}
    (h : pr.solveAt host.journaled sub qp x y = (answer, pr')) :
    ∃ call, calls pr'.events = calls pr.events ++ [call] ∧
      match answer with
      | .ok _ => Accepted sub call ∧ pr'.lastQp = some .solved
      | .error st => FailsAs sub st call ∧ pr'.lastQp = st.or pr.lastQp := by
  cases hcall : host.backend.solve qp (some ⟨x.toArray, y.toArray⟩) pr.state.1 with
  | mk reply s =>
    have hjournal : host.journaled.backend.solve qp (some ⟨x.toArray, y.toArray⟩) pr.state =
        (reply, s, pr.state.2 ++ [.called qp (some ⟨x.toArray, y.toArray⟩) reply]) := by
      simp only [Host.journaled, hcall]
    refine ⟨.called qp (some ⟨x.toArray, y.toArray⟩) reply, ?_⟩
    unfold solveAt solveQp at h
    rw [hjournal] at h
    cases reply with
    | error fault =>
      cases h
      exact ⟨calls_append _ _, .rejected, rfl⟩
    | ok a =>
      by_cases hsolved : a.status = .solved
      · simp only [hsolved, QpStatus.isSolved, decide_true, ↓reduceIte] at h
        split at h
        · rename_i hray
          cases h
          exact ⟨calls_append _ _, .ray hsolved hray, rfl⟩
        · rename_i hray
          cases h
          exact ⟨calls_append _ _, .mk hsolved (Bool.eq_false_iff.mpr hray), rfl⟩
      · simp only [hsolved, QpStatus.isSolved, decide_false, Bool.false_eq_true, ↓reduceIte] at h
        cases h
        exact ⟨calls_append _ _, .unsolved hsolved, rfl⟩

structure Served (sub : Subproblem p) (pr : Progress K (σ × List (Event K))) : Prop where
  called : calls pr.events ≠ []
  accepted : ∀ call ∈ calls pr.events, Accepted sub call
  last : pr.lastQp = some .solved

namespace Served

theorem congr (h : Served sub pr) (hcalls : calls pr'.events = calls pr.events)
    (hlast : pr'.lastQp = pr.lastQp) :
    Served sub pr' :=
  ⟨hcalls ▸ h.called, hcalls ▸ h.accepted, hlast.trans h.last⟩

theorem shouldAbort (h : Served sub pr) {b : Bool}
    (check : pr.shouldAbort host.journaled o = (b, pr')) :
    Served sub pr' := by
  refine h.congr (calls_of_shouldAbort check) ?_
  obtain ⟨s, rfl⟩ := changes_of_shouldAbort check
  rfl

theorem emit (h : Served sub pr) (r : Record K) : Served sub (pr.emit host.journaled o r) :=
  h.congr (calls_of_emit host o pr r) rfl

/-- After accepted calls, one more of them keeps the record. -/
theorem solveAt {qp : Qp K p.vars p.duals} {x : Vec K p.vars} {y : Vec K p.duals}
    {a : Answer K p.vars p.duals} (haccepted : ∀ call ∈ calls pr.events, Accepted sub call)
    (solve : pr.solveAt host.journaled sub qp x y = (.ok a, pr')) : Served sub pr' := by
  obtain ⟨call, hcalls, hcall, hlast⟩ := lastQp_of_solveAt solve
  refine ⟨?_, ?_, hlast⟩
  · rw [hcalls]
    exact List.concat_ne_nil _ _
  · rw [hcalls]
    exact List.forall_mem_append.mpr ⟨haccepted, List.forall_mem_singleton.mpr hcall⟩

end Served

end Progress

/-- The last call fails with status `st`, all calls before it are accepted, and `last` is on record:
the status of the failure, or that of the calls before it if it has none. -/
structure EndsFailing (sub : Subproblem p) (events : List (Event K)) (last : Option QpStatus)
    (earlier : List (Event K)) (st : Option QpStatus) : Prop where
  fails : ∃ call, calls events = earlier ++ [call] ∧ FailsAs sub st call
  accepted : ∀ call ∈ earlier, Accepted sub call
  last : last = st.or (if earlier = [] then none else some .solved)

namespace InnerLoop
variable {ρ : K} {l l' : InnerLoop p} {it : Iterate p} {r : InnerResult p}
  {pr pr' : Progress K (σ × List (Event K))}

/-- An iteration keeps the record unless its subproblem fails. -/
theorem served_of_iterate (hs : pr.Served sub) {st : Option InnerStatus}
    (h : l.iterate host.journaled o sub ρ pr = (st, l', pr')) (hst : ∀ s, st ≠ some (.failed s)) :
    pr'.Served sub := by
  cases iterate_outcome h with
  | aborted check => exact hs.shouldAbort check
  | failed check solve => exact absurd rfl (hst _)
  | stepped check solve report exit =>
    rw [report]
    exact (Progress.Served.solveAt (hs.shouldAbort check).accepted solve).congr
      (Progress.calls_of_emit host o _ _) rfl

theorem served_of_reaches (hs : pr.Served sub) (h : Reaches host.journaled o sub ρ l pr l' pr') :
    pr'.Served sub :=
  h.keeps (I := fun _ pr => pr.Served sub) (fun hs hiter => served_of_iterate hs hiter nofun) hs

theorem served_of_run (hs : pr.Served sub) (h : run host.journaled o sub ρ it pr = (r, pr'))
    (hst : ∀ st, r.status ≠ .failed st) : pr'.Served sub := by
  obtain ⟨last, pr₁, l, hpath, -, ⟨hiter, -⟩ | ⟨hiter, -⟩⟩ := run_ends h
  · exact served_of_iterate (served_of_reaches hs hpath) hiter fun s hs =>
      hst s (Option.some.inj hs)
  · exact served_of_iterate (served_of_reaches hs hpath) hiter nofun

/-- A level that fails adds its last call to accepted ones. -/
theorem endsFailing_of_run (hs : pr.Served sub) (h : run host.journaled o sub ρ it pr = (r, pr'))
    {st : Option QpStatus} (hst : r.status = .failed st) :
    ∃ earlier, earlier ≠ [] ∧ EndsFailing sub pr'.events pr'.lastQp earlier st := by
  obtain ⟨last, pr₁, l, hpath, hiter, -⟩ := ends_by_status h (by simp [hst])
  rw [hst] at hiter
  cases iterate_outcome hiter with
  | @failed pr₂ _ _ check solve =>
    have hserved := (served_of_reaches hs hpath).shouldAbort check
    obtain ⟨call, hcalls, hfails, hlast⟩ := Progress.lastQp_of_solveAt solve
    refine ⟨calls pr₂.events, hserved.called, ⟨call, hcalls, hfails⟩, hserved.accepted, ?_⟩
    rw [hlast, hserved.last, if_neg hserved.called]
  | stepped check solve report exit => cases exit_completes exit

end InnerLoop

namespace Run

omit [One K] [Div K] [BEq K] in
theorem finish_lastQp (host : Host K σ) (o : Options K) (e : Ending p) (pr : Progress K σ) :
    (finish host o e pr).1.stats.lastQp = pr.lastQp := by
  unfold finish
  split <;> rfl

variable [Root K] {w : WarmStart K} {s : σ}

theorem Begins.served {h : Head p (σ × List (Event K))}
    (hb : Begins host.journaled o p w (s, []) sub h) :
    h.progress.Served sub := by
  obtain ⟨admitted, build, solve⟩ := hb
  have hserved := Progress.Served.solveAt (List.forall_mem_nil _) solve
  exact hserved.congr (Progress.calls_of_emit host o _ _) rfl

theorem Visits.served {h : Head p (σ × List (Event K))}
    (hv : Visits host.journaled o p w (s, []) sub h) :
    h.progress.Served sub := by
  obtain ⟨first, hb, hr⟩ := hv
  refine hr.invariant (I := fun h => h.progress.Served sub) (fun {h h'} hs ht => ?_) hb.served
  cases turn_cause ht with
  | @raised n pr₁ r pr check left level verdict =>
    have hlevel : Progress.Served sub { pr₁ with outer := pr₁.outer + 1 } :=
      (hs.shouldAbort check).congr rfl rfl
    refine (InnerLoop.served_of_run hlevel level ?_).congr (Progress.calls_of_emit host o _ _) rfl
    rintro st hst
    rw [Run.verdict, hst] at verdict
    cases verdict

/-- A run that ends on a failed subproblem, the first or a later one. -/
theorem endsFailing_of_course {r : Solution K p.vars p.duals × σ × List (Event K)}
    (course : Course host.journaled o p w (s, []) r)
    (h : r.1.status = .initialFailed ∨ r.1.status = .qpFailed ∧ calls r.2.2 ≠ []) :
    ∃ sub earlier st, Subproblem.build p host.backend.needsDefinite o = .ok sub ∧
      (r.1.status = .initialFailed ↔ earlier = []) ∧
        EndsFailing sub r.2.2 r.1.stats.lastQp earlier st := by
  cases course with
  | rejected start => simp [fail, close] at h
  | certified hx hy certified => simp [succeed, close] at h
  | unbuildable admitted build =>
    obtain h | ⟨-, hcalls⟩ := h
    · cases h
    · exact absurd (calls_of_fail _ _) hcalls
  | @unsolved x0 y0 sub st pr admitted build solve =>
    obtain ⟨call, hcalls, hfails, hlast⟩ := Progress.lastQp_of_solveAt solve
    refine ⟨sub, [], st, build, iff_of_true rfl rfl, ⟨call, ?_, hfails⟩, List.forall_mem_nil _,
      hlast⟩
    rw [calls_of_fail]
    exact hcalls
  | halted visits turn =>
    rw [finish_status] at h
    cases turn_cause turn <;> simp at h
  | @settled sub head r status pr visits turn =>
    rw [finish_status] at h
    have hbuild : Subproblem.build p host.backend.needsDefinite o = .ok sub := by
      obtain ⟨first, ⟨admitted, build, solve⟩, hr⟩ := visits
      exact build
    cases turn_cause turn with
    | @settled n pr₁ _ _ _ check left level verdict =>
      have hgrounds := verdict_grounds verdict
      obtain rfl | ⟨rfl, -⟩ := h
      · exact hgrounds.elim
      · obtain ⟨st, hfailed⟩ := hgrounds
        have hlevel : Progress.Served sub { pr₁ with outer := pr₁.outer + 1 } :=
          (visits.served.shouldAbort check).congr rfl rfl
        obtain ⟨earlier, hearlier, ⟨call, hcalls, hfails⟩, haccepted, hlast⟩ :=
          InnerLoop.endsFailing_of_run hlevel level hfailed
        refine ⟨sub, earlier, st, hbuild, ?_, ⟨call, ?_, hfails⟩, haccepted, ?_⟩
        · rw [finish_status]
          exact iff_of_false RunStatus.noConfusion hearlier
        · rw [calls_of_finish, hcalls]
        · rw [finish_lastQp, hlast]

variable (host o p w s)

/-- A run that ends on a failed subproblem has called the solver with success, or not at all before,
and then once more. The status on record is that of the last call if and only if the call has one or
is the only one. Otherwise the program has been rejected, and the record still says solved: that of
the call before. -/
theorem last_status_tells_failure_iff :
    let sol : Solution K p.vars p.duals := (runFrom host o p w s).1
    let events := journal host o p w s
    sol.status = .initialFailed ∨ sol.status = .qpFailed ∧ calls events ≠ [] →
    ∃ sub earlier call st, Subproblem.build p host.backend.needsDefinite o = .ok sub ∧
      calls events = earlier ++ [call] ∧ (∀ c ∈ earlier, Accepted sub c) ∧ FailsAs sub st call ∧
      (sol.status = .initialFailed ↔ earlier = []) ∧
      (sol.stats.lastQp = st ↔ st ≠ none ∨ earlier = []) ∧
      (sol.stats.lastQp = some .solved ↔ st = none ∧ earlier ≠ []) := by
  intro sol events hend
  have hcourse := runFrom_course host.journaled o p w (s, [])
  have hsame : (runFrom host.journaled o p w (s, [])).1 = sol := runFrom_journaled host o p w s
  rw [← hsame] at hend
  obtain ⟨sub, earlier, st, hbuild, hfirst, ⟨call, hcalls, hfails⟩, haccepted, hlast⟩ :=
    endsFailing_of_course hcourse hend
  rw [hsame] at hfirst hlast
  refine ⟨sub, earlier, call, st, hbuild, hcalls, haccepted, hfails, hfirst, ?_, ?_⟩
  · rw [hlast]
    cases st with
    | none => simp
    | some st => simp
  · rw [hlast]
    cases st with
    | none => simp
    | some st => simpa using fun h => hfails.ne_solved (congrArg some h)

/-- A solver that calls the second program infeasible. -/
theorem last_status_tells_failure_iff_warmUp :
    let host := Host.answering
      [some .uncoupled, some { Backend.Line.uncoupled with status := .infeasible }]
    let w : WarmStart ℚ := ⟨none, none, none⟩
    let sol := (runFrom host Options.default Problem.warmUp w 0).1
    let events := journal host Options.default Problem.warmUp w 0
    sol.status = .qpFailed ∧ calls events ≠ [] ∧ sol.stats.lastQp = some .infeasible ∧
    ∃ (sub : Subproblem Problem.warmUp) (call : Event ℚ),
      (calls events).getLast? = some call ∧ FailsAs sub (some .infeasible) call := by
  intro host w sol events
  have hend : sol.status = .qpFailed ∧ (calls events).length = 2 ∧
      sol.stats.lastQp = some .infeasible := by
    decide +kernel
  obtain ⟨hstatus, hcount, hlast⟩ := hend
  have hcalls : calls events ≠ [] := List.ne_nil_of_length_eq_add_one hcount
  obtain ⟨sub, earlier, call, st, -, hevents, -, hfails, -, htells, hstale⟩ :=
    last_status_tells_failure_iff Problem.warmUp host Options.default w 0 (.inr ⟨hstatus, hcalls⟩)
  have hst : st = some .infeasible := by
    by_cases hsole : earlier = []
    · exact (htells.mpr (.inr hsole)).symm.trans hlast
    · have hstatus : st ≠ none := fun hnone => nomatch hlast.symm.trans (hstale.mpr ⟨hnone, hsole⟩)
      exact (htells.mpr (.inl hstatus)).symm.trans hlast
  rw [hst] at hfails
  exact ⟨hstatus, hcalls, hlast, sub, call, by rw [hevents, List.getLast?_concat], hfails⟩

/-- A solver that rejects the second program: the run fails on it, with the first answer still on
record. -/
theorem rejection_leaves_solved :
    let host := Host.answering [some .uncoupled, none]
    let w : WarmStart ℚ := ⟨none, none, none⟩
    let sol := (runFrom host Options.default Problem.warmUp w 0).1
    Options.default.validate (K := ℚ) = .ok () ∧ sol.status = .qpFailed ∧
      (calls (journal host Options.default Problem.warmUp w 0)).length = 2 ∧
      sol.stats.lastQp = some .solved := by
  intro host w sol
  have ho := Options.validate_eq_ok_iff.mpr (Options.valid_default (K := ℚ) fun _ => rfl)
  have hrun : sol.status = .qpFailed ∧
    (calls (journal host Options.default Problem.warmUp w 0)).length = 2 ∧
      sol.stats.lastQp = some .solved := by decide +kernel
  exact ⟨ho, hrun⟩

end Run

end ComplementarityQP
