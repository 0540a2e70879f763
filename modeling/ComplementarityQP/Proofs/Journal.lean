import ComplementarityQP.Proofs.Course
import ComplementarityQP.Proofs.Simulation

/-! The journal of a run: its questions to the surroundings with their answers, and the records it
shows. -/
namespace ComplementarityQP

variable {K σ : Type}

inductive Event (K : Type) where
  | called {n m : Nat} (qp : Qp K n m) (hint : Option (Hint K))
    (answer : Except (Fault K) (Answer K n m))
  | polled (cancelled : Bool)
  | timed (now : K)
  | shown (r : Record K)

namespace Event

def isCall : Event K → Bool
  | called .. => true
  | _ => false

def isPoll : Event K → Bool
  | polled _ => true
  | _ => false

def iterations : Event K → Nat
  | called _ _ (.ok a) => a.iterations
  | _ => 0

end Event

def calls (events : List (Event K)) : List (Event K) := events.filter Event.isCall

@[simp] theorem calls_append (before after : List (Event K)) :
    calls (before ++ after) = calls before ++ calls after :=
  List.filter_append ..

def Idle (events : List (Event K)) : Prop := ∀ e ∈ events, e.isCall = false ∧ e.isPoll = false

theorem Idle.calls_eq {events : List (Event K)} (h : Idle events) : calls events = [] :=
  List.filter_eq_nil_iff.mpr fun e he => by simp [(h e he).1]

def Host.journaled (host : Host K σ) : Host K (σ × List (Event K)) where
  backend := {
    name := host.backend.name
    needsDefinite := host.backend.needsDefinite
    solve := fun qp hint t =>
      let (answer, s) := host.backend.solve qp hint t.1
      (answer, s, t.2 ++ [.called qp hint answer]) }
  observe r t := (host.observe r t.1, t.2 ++ [.shown r])
  cancelled t :=
    let (b, s) := host.cancelled t.1
    (b, s, t.2 ++ [.polled b])
  clock t :=
    let (now, s) := host.clock t.1
    (now, s, t.2 ++ [.timed now])

theorem Host.covers_journaled (host : Host K σ) : Host.Covers Prod.fst host.journaled host where
  needsDefinite := rfl
  solve _ _ _ := rfl
  observe _ _ := rfl
  cancelled _ := rfl
  clock _ := rfl

/-- A check whether to stop, with its result: a poll, and a reading of the clock where the time is
limited. -/
inductive Check (o : Options K) (started : K) [Sub K] [LT K] [DecidableLT K] : Bool →
    List (Event K) → Prop
  | cancelled : Check o started true [.polled true]
  | unlimited (limit : o.timeLimit = none) : Check o started false [.polled false]
  | timed {limit now : K} (limited : o.timeLimit = some limit) :
      Check o started (decide (limit < now - started)) [.polled false, .timed now]

theorem Check.calls_eq [Sub K] [LT K] [DecidableLT K] {o : Options K} {started : K} {b : Bool}
    {check : List (Event K)} (h : Check o started b check) : calls check = [] := by
  cases h with
  | cancelled => rfl
  | unlimited limit => rfl
  | timed limited => rfl

def LastCheck [Sub K] [LT K] [DecidableLT K] (o : Options K) (started : K) (b : Bool)
    (events : List (Event K)) : Prop :=
  ∃ before check after, events = before ++ check ++ after ∧ Check o started b check ∧
    ∀ e ∈ after, e.isPoll = false

section Calls
variable [Zero K] [One K] [Add K] [Sub K] [Neg K] [Mul K] [Div K] [LT K] [LE K] [DecidableLT K]
  [DecidableLE K] [OfScientific K] [Special K] [BEq K] {p : Problem K}

inductive Accepted (sub : Subproblem p) : Event K → Prop
  | mk {qp : Qp K p.vars p.duals} {x : Vec K p.vars} {y : Vec K p.duals}
    {a : Answer K p.vars p.duals}
      (solved : a.status = .solved) (bounded : sub.isRay qp x (a.x - x) = false) :
      Accepted sub (.called qp (some ⟨x.toArray, y.toArray⟩) (.ok a))

inductive Refused (sub : Subproblem p) : Event K → Prop
  | rejected {n m : Nat} {qp : Qp K n m} {hint : Option (Hint K)} {fault : Fault K} :
      Refused sub (.called qp hint (.error fault))
  | unsolved {n m : Nat} {qp : Qp K n m} {hint : Option (Hint K)} {a : Answer K n m}
    (status : a.status ≠ .solved) :
      Refused sub (.called qp hint (.ok a))
  | ray {qp : Qp K p.vars p.duals} {x : Vec K p.vars} {y : Vec K p.duals}
    {a : Answer K p.vars p.duals}
      (ray : sub.isRay qp x (a.x - x) = true) :
        Refused sub (.called qp (some ⟨x.toArray, y.toArray⟩) (.ok a))

variable {sub : Subproblem p} {e : Event K}

theorem Accepted.calls_eq (h : Accepted sub e) : calls [e] = [e] := by
  cases h
  rfl

theorem Refused.calls_eq (h : Refused sub e) : calls [e] = [e] := by
  cases h with
  | rejected => rfl
  | unsolved status => rfl
  | ray ray => rfl

end Calls

namespace Progress

def events (pr : Progress K (σ × List (Event K))) : List (Event K) := pr.state.2

variable {host : Host K σ} {o : Options K} {pr pr' : Progress K (σ × List (Event K))}

theorem events_elapsed [Sub K] (host : Host K σ) (pr : Progress K (σ × List (Event K))) :
    ∃ now, (pr.elapsed host.journaled).2.events = pr.events ++ [.timed now] := ⟨_, rfl⟩

theorem emit_events (host : Host K σ) (o : Options K) (pr : Progress K (σ × List (Event K)))
    (r : Record K) :
    (pr.emit host.journaled o r).events =
      pr.events ++ if o.verbosity.shows r then [.shown r] else [] := by
  cases hshows : o.verbosity.shows r with
  | false => simp [emit, hshows, events]
  | true => simp [emit, hshows, events, Host.journaled]

theorem events_emit (host : Host K σ) (o : Options K) (pr : Progress K (σ × List (Event K)))
    (r : Record K) :
    ∃ added, (pr.emit host.journaled o r).events = pr.events ++ added ∧ Idle added := by
  refine ⟨_, emit_events host o pr r, ?_⟩
  split
  · simp [Idle, Event.isCall, Event.isPoll]
  · simp [Idle]

theorem events_shouldAbort [Sub K] [LT K] [DecidableLT K] {b : Bool}
    (h : pr.shouldAbort host.journaled o = (b, pr')) :
    ∃ check, pr'.events = pr.events ++ check ∧ Check o pr.started b check := by
  unfold shouldAbort at h
  cases hpoll : host.cancelled pr.state.1 with
  | mk polled s =>
    have hjournal : host.journaled.cancelled pr.state =
        (polled, s, pr.state.2 ++ [.polled polled]) := by
      simp only [Host.journaled, hpoll]
    rw [hjournal] at h
    cases polled with
    | true =>
      cases h
      exact ⟨[.polled true], rfl, .cancelled⟩
    | false =>
      cases hlimit : o.timeLimit with
      | none =>
        rw [hlimit] at h
        cases h
        exact ⟨[.polled false], rfl, .unlimited hlimit⟩
      | some limit =>
        rw [hlimit] at h
        cases h
        refine ⟨[.polled false, .timed (host.clock s).1], ?_, .timed hlimit⟩
        simp [events]

theorem calls_of_emit (host : Host K σ) (o : Options K) (pr : Progress K (σ × List (Event K)))
    (r : Record K) :
    calls (pr.emit host.journaled o r).events = calls pr.events := by
  obtain ⟨added, hadded, hidle⟩ := events_emit host o pr r
  rw [hadded, calls_append, hidle.calls_eq, List.append_nil]

theorem calls_of_shouldAbort [Sub K] [LT K] [DecidableLT K] {b : Bool}
    (h : pr.shouldAbort host.journaled o = (b, pr')) : calls pr'.events = calls pr.events := by
  obtain ⟨check, hadded, hcheck⟩ := events_shouldAbort h
  rw [hadded, calls_append, hcheck.calls_eq, List.append_nil]

section Solve
variable [Zero K] [One K] [Add K] [Sub K] [Neg K] [Mul K] [Div K] [LT K] [LE K] [DecidableLT K]
  [DecidableLE K] [OfScientific K] [Special K] [BEq K] {p : Problem K} {sub : Subproblem p}
  {qp : Qp K p.vars p.duals} {x : Vec K p.vars} {y : Vec K p.duals}

/-- The solver is asked once, its iterations are counted whatever comes of it, and the subproblem
fails if the call does. -/
theorem events_solveAt {answer : Except (Option QpStatus) (Answer K p.vars p.duals)}
    (h : pr.solveAt host.journaled sub qp x y = (answer, pr')) :
    ∃ call, pr'.events = pr.events ++ [call] ∧
      pr'.qpIterations = pr.qpIterations + call.iterations ∧
      match answer with
      | .error _ => Refused sub call
      | .ok _ => Accepted sub call := by
  cases hcall : host.backend.solve qp (some ⟨x.toArray, y.toArray⟩) pr.state.1 with
  | mk reply s =>
    have hjournal : host.journaled.backend.solve qp (some ⟨x.toArray, y.toArray⟩) pr.state =
        (reply, s, pr.state.2 ++ [.called qp (some ⟨x.toArray, y.toArray⟩) reply]) := by
      simp only [Host.journaled, hcall]
    refine ⟨.called qp (some ⟨x.toArray, y.toArray⟩) reply, ?_⟩
    unfold solveAt solveQp at h
    rw [hjournal] at h
    cases reply with
    | error fault =>
      cases h
      exact ⟨rfl, rfl, .rejected⟩
    | ok a =>
      by_cases hsolved : a.status = .solved
      · simp only [hsolved, QpStatus.isSolved, decide_true, ↓reduceIte] at h
        split at h
        · rename_i hray
          cases h
          exact ⟨rfl, rfl, .ray hray⟩
        · rename_i hray
          cases h
          exact ⟨rfl, rfl, .mk hsolved (Bool.eq_false_iff.mpr hray)⟩
      · simp only [hsolved, QpStatus.isSolved, decide_false, Bool.false_eq_true, ↓reduceIte] at h
        cases h
        exact ⟨rfl, rfl, .unsolved hsolved⟩

theorem calls_of_solveAt {answer : Except (Option QpStatus) (Answer K p.vars p.duals)}
    (h : pr.solveAt host.journaled sub qp x y = (answer, pr')) :
    ∃ call, calls pr'.events = calls pr.events ++ [call] ∧
      pr'.qpIterations = pr.qpIterations + call.iterations := by
  obtain ⟨call, hadded, hqp, houtcome⟩ := events_solveAt h
  refine ⟨call, ?_, hqp⟩
  rw [hadded, calls_append]
  cases answer with
  | error st => rw [Refused.calls_eq houtcome]
  | ok a => rw [Accepted.calls_eq houtcome]

end Solve

end Progress

namespace Run
section Endings
variable [Zero K] [Add K] [Sub K] [Neg K] [Mul K] [LT K] [LE K] [DecidableLT K] [DecidableLE K]
  [OfScientific K] [Special K] {p : Problem K} {host : Host K σ} {o : Options K}

omit [LE K] [DecidableLE K] [Special K] in
theorem events_close (host : Host K σ) (o : Options K) (e : Ending p) (kind : Stationarity)
    (stationarity : K) (pr : Progress K (σ × List (Event K))) :
    ∃ added, (close host.journaled o e kind stationarity pr).2.2 = pr.events ++ added ∧
      Idle added := by
  obtain ⟨shown, hshown, hidle⟩ :=
    Progress.events_emit host o pr (outerRecord .terminated e.point e.penalty stationarity pr)
  obtain ⟨now, hnow⟩ := Progress.events_elapsed host
    (pr.emit host.journaled o (outerRecord .terminated e.point e.penalty stationarity pr))
  refine ⟨shown ++ [.timed now], ?_, ?_⟩
  · rw [← List.append_assoc, ← hshown, ← hnow]
    rfl
  · intro event hmem
    obtain hmem | hmem := List.mem_append.mp hmem
    · exact hidle event hmem
    · rw [List.mem_singleton.mp hmem]
      exact ⟨rfl, rfl⟩

theorem events_finish (host : Host K σ) (o : Options K) (e : Ending p)
    (pr : Progress K (σ × List (Event K))) :
    ∃ added, (finish host.journaled o e pr).2.2 = pr.events ++ added ∧ Idle added := by
  unfold finish
  split
  · exact events_close host o _ _ _ pr
  · exact events_close host o _ _ _ pr

omit [LE K] [DecidableLE K] [Special K] in
theorem calls_of_close (e : Ending p) (kind : Stationarity) (stationarity : K)
    (pr : Progress K (σ × List (Event K))) :
    calls (close host.journaled o e kind stationarity pr).2.2 = calls pr.events := by
  obtain ⟨added, hadded, hidle⟩ := events_close host o e kind stationarity pr
  rw [hadded, calls_append, hidle.calls_eq, List.append_nil]

omit [Special K] in
theorem calls_of_fail (e : Ending p) (pr : Progress K (σ × List (Event K))) :
    calls (fail host.journaled o e pr).2.2 = calls pr.events := calls_of_close e _ _ pr

theorem calls_of_finish (e : Ending p) (pr : Progress K (σ × List (Event K))) :
    calls (finish host.journaled o e pr).2.2 = calls pr.events := by
  obtain ⟨added, hadded, hidle⟩ := events_finish host o e pr
  rw [hadded, calls_append, hidle.calls_eq, List.append_nil]

end Endings
end Run

variable [Zero K] [One K] [Add K] [Sub K] [Neg K] [Mul K] [Div K] [LT K] [LE K] [DecidableLT K]
  [DecidableLE K] [OfScientific K] [Special K] [BEq K] {p : Problem K} {host : Host K σ}
  {o : Options K} {sub : Subproblem p}

namespace InnerLoop
variable {ρ : K} {l l' : InnerLoop p} {pr pr' : Progress K (σ × List (Event K))}

theorem events_of_none (h : l.iterate host.journaled o sub ρ pr = (none, l', pr')) :
    ∃ added call, pr'.events = pr.events ++ added ∧ calls added = [call] ∧ Accepted sub call := by
  cases iterate_outcome h with
  | @stepped pr₁ pr₂ _ a _ _ check solve report exit =>
    obtain ⟨checked, hchecked, hcheck⟩ := Progress.events_shouldAbort check
    obtain ⟨call, hcall, -, haccepted⟩ := Progress.events_solveAt solve
    have hemit := Progress.events_emit host o { pr₂ with total := pr₂.total + 1 }
      (l.record o ρ pr₁.total a pr₂.outer (pr₂.qpIterations - pr₁.qpIterations))
    rw [← report] at hemit
    obtain ⟨shown, hshown, hidle⟩ := hemit
    refine ⟨checked ++ [call] ++ shown, call, ?_, ?_, haccepted⟩
    · calc pr'.events = pr₂.events ++ shown := hshown
        _ = pr.events ++ (checked ++ [call] ++ shown) := by simp [hcall, hchecked]
    · rw [calls_append, calls_append, hcheck.calls_eq, hidle.calls_eq, Accepted.calls_eq haccepted]
      rfl

theorem Reaches.events (h : Reaches host.journaled o sub ρ l pr l' pr') :
    ∃ added, pr'.events = pr.events ++ added ∧ l'.iterations = l.iterations + (calls added).length ∧
      ∀ call ∈ calls added, Accepted sub call := by
  induction h with
  | here => exact ⟨[], by simp [calls]⟩
  | go first _ ih =>
    -- Every iteration on the way counts one and makes one call.
    obtain ⟨added, call, hadded, hcall, haccepted⟩ := events_of_none first
    obtain ⟨rest, hrest, hcount, hall⟩ := ih
    have hfirst := iterations_of_none first
    refine ⟨added ++ rest, ?_, ?_, ?_⟩
    · rw [hrest, hadded, List.append_assoc]
    · rw [calls_append, hcall, List.length_append, List.length_singleton]
      omega
    · intro call' hmem
      rw [calls_append, hcall] at hmem
      obtain hmem | hmem := List.mem_append.mp hmem
      · rw [List.mem_singleton.mp hmem]
        exact haccepted
      · exact hall call' hmem

variable {it : Iterate p} {r : InnerResult p}

/-- A level that meets its limit has made as many calls as it counts iterations, all of them
accepted. -/
theorem events_of_iterationLimit (h : run host.journaled o sub ρ it pr = (r, pr'))
    (hst : r.status = .iterationLimit) :
    ∃ added, pr'.events = pr.events ++ added ∧ (calls added).length = r.iterations ∧
      ∀ call ∈ calls added, Accepted sub call := by
  obtain ⟨l, hpath, rfl, -⟩ := ends_by_limit h hst
  obtain ⟨added, hadded, hcount, hall⟩ := hpath.events
  exact ⟨added, hadded, by simpa [start, result] using hcount.symm, hall⟩

/-- A level that fails has just made a call that fails it. -/
theorem events_of_failed {st : Option QpStatus} (h : run host.journaled o sub ρ it pr = (r, pr'))
    (hst : r.status = .failed st) :
    ∃ before call, pr'.events = before ++ [call] ∧ Refused sub call := by
  obtain ⟨last, pr₁, l, -, hiter, -⟩ := ends_by_status h (by simp [hst])
  rw [hst] at hiter
  cases iterate_outcome hiter with
  | failed check solve =>
    obtain ⟨call, hcall, -, hrefused⟩ := Progress.events_solveAt solve
    exact ⟨_, call, hcall, hrefused⟩
  | stepped check solve report exit => cases exit_completes exit

theorem events_of_aborted (h : run host.journaled o sub ρ it pr = (r, pr'))
    (hst : r.status = .aborted) :
    ∃ before check, pr'.events = before ++ check ∧ Check o pr.started true check := by
  obtain ⟨last, pr₁, l, hpath, hiter, -⟩ := ends_by_status h (by simp [hst])
  rw [hst] at hiter
  cases iterate_outcome hiter with
  | aborted check =>
    obtain ⟨checked, hchecked, hcheck⟩ := Progress.events_shouldAbort check
    rw [hpath.quiet.started] at hcheck
    exact ⟨_, checked, hchecked, hcheck⟩
  | stepped check solve report exit => cases exit_completes exit

end InnerLoop

namespace Run

variable [Root K] (host : Host K σ) (o : Options K) (p : Problem K) (w : WarmStart K) (s : σ)

def journal : List (Event K) := (runFrom host.journaled o p w (s, [])).2.2

/-- Keeping the journal does not change the run. -/
theorem runFrom_journaled : (runFrom host.journaled o p w (s, [])).1 = (runFrom host o p w s).1 :=
  (congrArg Prod.fst (runFrom_map host.covers_journaled o p w (s, []))).symm

end Run

end ComplementarityQP
