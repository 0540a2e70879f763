import ComplementarityQP.Run.Outer

/-! Two runs side by side. Main statement: runs in surroundings that answer alike, with options that
differ at most in what becomes of the records, take the same course. Surroundings that keep more in
their state give the same run. -/
namespace ComplementarityQP

variable {K σ τ : Type}

def Options.recording (o : Options K) (v : Verbosity) (keep : Bool) : Options K :=
  { o with verbosity := v, storeSteps := keep }

def Host.shown (host : Host K σ) (v : Verbosity) (r : Record K) (s : σ) : σ :=
  if v.shows r then host.observe r s else s

def kept (keep : Bool) (r : Record K) (records : List (Record K)) : List (Record K) :=
  if keep then records ++ [r] else records

/-- What a run does not count: the time of its start, the records it has kept and the state of its
surroundings. -/
abbrev Rest (K σ : Type) := K × List (Record K) × σ

/-- Surroundings that answer alike, and stay related by `R`. -/
structure Parallel [Sub K] [LT K] [DecidableLT K] (R : Rest K σ → Rest K τ → Prop) (host : Host K σ)
    (o : Options K) (host' : Host K τ) (v : Verbosity) (keep : Bool) : Prop where
  needsDefinite : host'.backend.needsDefinite = host.backend.needsDefinite
  solve {n m : Nat} {t t' : K} {rs rs' : List (Record K)} {s : σ} {s' : τ} (qp : Qp K n m)
    (hint : Option (Hint K)) :
    R (t, rs, s) (t', rs', s') →
      (host'.backend.solve qp hint s').1 = (host.backend.solve qp hint s).1 ∧
      R (t, rs, (host.backend.solve qp hint s).2) (t', rs', (host'.backend.solve qp hint s').2)
  cancelled {t t' : K} {rs rs' : List (Record K)} {s : σ} {s' : τ} :
    R (t, rs, s) (t', rs', s') →
      (host'.cancelled s').1 = (host.cancelled s).1 ∧
      R (t, rs, (host.cancelled s).2) (t', rs', (host'.cancelled s').2)
  overtime {t t' : K} {rs rs' : List (Record K)} {s : σ} {s' : τ} (limit : K) :
    o.timeLimit = some limit → R (t, rs, s) (t', rs', s') →
      decide (limit < (host'.clock s').1 - t') = decide (limit < (host.clock s).1 - t) ∧
      R (t, rs, (host.clock s).2) (t', rs', (host'.clock s').2)
  record {t t' : K} {rs rs' : List (Record K)} {s : σ} {s' : τ} (r : Record K) :
    R (t, rs, s) (t', rs', s') →
      R (t, kept o.storeSteps r rs, host.shown o.verbosity r s)
        (t', kept keep r rs', host'.shown v r s')

namespace Progress

def rest (pr : Progress K σ) : Rest K σ := (pr.started, pr.trace, pr.state)

structure Alike (R : Rest K σ → Rest K τ → Prop) (pr : Progress K σ) (pr' : Progress K τ) :
    Prop where
  outer : pr'.outer = pr.outer
  total : pr'.total = pr.total
  qpIterations : pr'.qpIterations = pr.qpIterations
  lastQp : pr'.lastQp = pr.lastQp
  history : pr'.history = pr.history
  rest : R pr.rest pr'.rest

end Progress

section Dealings
variable [Sub K] [LT K] [DecidableLT K] {R : Rest K σ → Rest K τ → Prop} {host : Host K σ}
  {o : Options K} {host' : Host K τ} {v : Verbosity} {keep : Bool}
  (hp : Parallel R host o host' v keep)
include hp

namespace Progress
variable {pr pr₁ : Progress K σ} {pr' : Progress K τ} (h : Alike R pr pr')
include h

theorem emit_alike {r r' : Record K} (hr : r' = r) :
    Alike R (pr.emit host o r) (pr'.emit host' (o.recording v keep) r') := by
  rw [hr]
  exact ⟨h.outer, h.total, h.qpIterations, h.lastQp, h.history, hp.record r h.rest⟩

theorem shouldAbort_alike {b : Bool} (hcheck : pr.shouldAbort host o = (b, pr₁)) :
    ∃ pr₁', pr'.shouldAbort host' (o.recording v keep) = (b, pr₁') ∧ Alike R pr₁ pr₁' := by
  obtain ⟨hpoll, hrest⟩ := hp.cancelled h.rest
  unfold shouldAbort at hcheck ⊢
  rcases hc : host.cancelled pr.state with ⟨cancelled, s⟩
  rcases hc' : host'.cancelled pr'.state with ⟨cancelled', s'⟩
  rw [hc, hc'] at hpoll hrest
  rw [hc] at hcheck
  cases hpoll
  cases cancelled with
  | true =>
    cases hcheck
    exact ⟨_, rfl, h.outer, h.total, h.qpIterations, h.lastQp, h.history, hrest⟩
  | false =>
    have hlimit' : (o.recording v keep).timeLimit = o.timeLimit := rfl
    rw [hlimit']
    cases hlimit : o.timeLimit with
    | none =>
      rw [hlimit] at hcheck
      cases hcheck
      exact ⟨_, rfl, h.outer, h.total, h.qpIterations, h.lastQp, h.history, hrest⟩
    | some limit =>
      obtain ⟨hlate, hlast⟩ := hp.overtime limit hlimit hrest
      rw [hlimit] at hcheck
      cases hcheck
      exact ⟨_, Prod.ext hlate rfl, h.outer, h.total, h.qpIterations, h.lastQp, h.history, hlast⟩

theorem solveQp_alike {n m : Nat} {qp : Qp K n m} {hint : Hint K}
    {answer : Except (Option QpStatus) (Answer K n m)}
    (hsolve : pr.solveQp host qp hint = (answer, pr₁)) :
    ∃ pr₁', pr'.solveQp host' qp hint = (answer, pr₁') ∧ Alike R pr₁ pr₁' := by
  obtain ⟨hreply, hrest⟩ := hp.solve qp (some hint) h.rest
  unfold solveQp at hsolve ⊢
  rcases hc : host.backend.solve qp (some hint) pr.state with ⟨reply, s⟩
  rcases hc' : host'.backend.solve qp (some hint) pr'.state with ⟨reply', s'⟩
  rw [hc, hc'] at hreply hrest
  rw [hc] at hsolve
  cases hreply
  cases reply with
  | error fault =>
    cases hsolve
    exact ⟨_, rfl, h.outer, h.total, h.qpIterations, h.lastQp, h.history, hrest⟩
  | ok a =>
    cases hsolve
    exact ⟨_, rfl, h.outer, h.total, congrArg (· + a.iterations) h.qpIterations, rfl,
      h.history, hrest⟩

theorem solveAt_alike [Zero K] [One K] [Add K] [Neg K] [Mul K] [Div K] [LE K] [DecidableLE K]
    [OfScientific K] [Special K] [BEq K] {p : Problem K} {sub : Subproblem p}
    {qp : Qp K p.vars p.duals} {x : Vec K p.vars} {y : Vec K p.duals}
    {answer : Except (Option QpStatus) (Answer K p.vars p.duals)}
    (hsolve : pr.solveAt host sub qp x y = (answer, pr₁)) :
    ∃ pr₁', pr'.solveAt host' sub qp x y = (answer, pr₁') ∧ Alike R pr₁ pr₁' := by
  unfold solveAt at hsolve ⊢
  rcases hqp : pr.solveQp host qp ⟨x.toArray, y.toArray⟩ with ⟨reply, pr₂⟩
  obtain ⟨pr₂', hqp', h₂⟩ := solveQp_alike hp h hqp
  rw [hqp] at hsolve
  rw [hqp']
  cases reply with
  | error st =>
    cases hsolve
    exact ⟨pr₂', rfl, h₂⟩
  | ok a =>
    dsimp only at hsolve ⊢
    cases hray : sub.isRay qp x (a.x - x) with
    | true =>
      rw [hray] at hsolve
      cases hsolve
      exact ⟨_, rfl, h₂.outer, h₂.total, h₂.qpIterations, rfl, h₂.history, h₂.rest⟩
    | false =>
      rw [hray] at hsolve
      cases hsolve
      exact ⟨pr₂', rfl, h₂⟩

end Progress

end Dealings

namespace Run
section Records
variable [Zero K] [Add K] [Sub K] [Neg K] [Mul K] [LT K] [LE K] [DecidableLT K] [DecidableLE K]
  [OfScientific K] {p : Problem K} {R : Rest K σ → Rest K τ → Prop}

omit [LE K] [DecidableLE K] in
theorem outerRecord_alike {pr : Progress K σ} {pr' : Progress K τ} (h : Progress.Alike R pr pr')
    (phase : Phase) (it : Iterate p) (ρ stationarity : K) :
    outerRecord phase it ρ stationarity pr' = outerRecord phase it ρ stationarity pr := by
  simp only [outerRecord, h.outer, h.total, h.qpIterations]

theorem report_alike {host : Host K σ} {o : Options K} {host' : Host K τ} {v : Verbosity}
    {keep : Bool} (hp : Parallel R host o host' v keep) {pr : Progress K σ} {pr' : Progress K τ}
    (h : Progress.Alike R pr pr') (phase : Phase) (it : Iterate p) (ρ : K) :
    Progress.Alike R (report host o phase it ρ pr)
      (report host' (o.recording v keep) phase it ρ pr') := by
  unfold report
  rw [outerRecord_alike h]
  exact Progress.emit_alike hp h rfl

end Records
end Run

section Loops
variable [Zero K] [One K] [Add K] [Sub K] [Neg K] [Mul K] [Div K] [LT K] [LE K] [DecidableLT K]
  [DecidableLE K] [OfScientific K] [Special K] [BEq K] {p : Problem K}
  {R : Rest K σ → Rest K τ → Prop} {host : Host K σ} {o : Options K} {host' : Host K τ}
  {v : Verbosity} {keep : Bool} (hp : Parallel R host o host' v keep)
include hp

namespace InnerLoop
variable (sub : Subproblem p) (ρ : K)

omit [Special K] [BEq K] in
theorem accept_alike {l l' : InnerLoop p} {x : Vec K p.vars} {allowance stepNorm : K}
    {a : Answer K p.vars p.duals} {qpIterations : Nat} {pr pr₁ : Progress K σ} {pr' : Progress K τ}
    (h : Progress.Alike R pr pr')
    (haccept : l.accept host o ρ x allowance a qpIterations pr = (stepNorm, l', pr₁)) :
    ∃ pr₁', l.accept host' (o.recording v keep) ρ x allowance a qpIterations pr' =
      (stepNorm, l', pr₁') ∧
      Progress.Alike R pr₁ pr₁' := by
  have hcount : Progress.Alike R { pr with total := pr.total + 1 }
    { pr' with total := pr'.total + 1 } :=
    ⟨h.outer, congrArg (· + 1) h.total, h.qpIterations, h.lastQp, h.history, h.rest⟩
  cases haccept
  refine ⟨_, rfl, Progress.emit_alike hp hcount ?_⟩
  simp only [h.outer, h.total]

theorem iterate_alike {l l' : InnerLoop p} {pr pr₁ : Progress K σ} {pr' : Progress K τ}
    {st : Option InnerStatus} (h : Progress.Alike R pr pr')
    (hiter : l.iterate host o sub ρ pr = (st, l', pr₁)) :
    ∃ pr₁', l.iterate host' (o.recording v keep) sub ρ pr' = (st, l', pr₁') ∧
      Progress.Alike R pr₁ pr₁' := by
  unfold iterate at hiter ⊢
  rcases check : pr.shouldAbort host o with ⟨b, pr₂⟩
  obtain ⟨pr₂', check', h₂⟩ := Progress.shouldAbort_alike hp h check
  rw [check] at hiter
  rw [check']
  cases b with
  | true =>
    cases hiter
    exact ⟨pr₂', rfl, h₂⟩
  | false =>
    have hx : p.nudged (o.recording v keep) ρ pr₂'.total l.point.x =
        p.nudged o ρ pr₂.total l.point.x := by
      rw [h₂.total]
      rfl
    dsimp only at hiter ⊢
    rw [hx]
    rcases solve : pr₂.solveAt host sub (sub.penalized (p.nudged o ρ pr₂.total l.point.x) ρ)
      (p.nudged o ρ pr₂.total l.point.x) l.point.y with ⟨answer, pr₃⟩
    obtain ⟨pr₃', solve', h₃⟩ := Progress.solveAt_alike hp h₂ solve
    rw [solve] at hiter
    rw [solve']
    cases answer with
    | error s =>
      cases hiter
      exact ⟨pr₃', rfl, h₃⟩
    | ok a =>
      have hbudget : p.meritBudget (o.recording v keep) ρ l.point.x = p.meritBudget o ρ l.point.x :=
        rfl
      dsimp only at hiter ⊢
      rw [hbudget, h₃.qpIterations, h₂.qpIterations]
      generalize haccept : accept host o ρ _ _ _ a _ pr₃ = accepted at hiter
      obtain ⟨stepNorm, l₁, pr₄⟩ := accepted
      obtain ⟨pr₄', haccept', h₄⟩ := accept_alike hp ρ h₃ haccept
      rw [haccept']
      cases hiter
      exact ⟨pr₄', rfl, h₄⟩

theorem loop_alike (left : Nat) (l : InnerLoop p) (pr : Progress K σ) {pr' : Progress K τ}
    (h : Progress.Alike R pr pr') :
    ∃ pr₁', loop host' (o.recording v keep) sub ρ left l pr' =
      ((loop host o sub ρ left l pr).1, pr₁') ∧
      Progress.Alike R (loop host o sub ρ left l pr).2 pr₁' := by
  fun_induction loop host o sub ρ left l pr generalizing pr' with
  | case1 left l pr st l₁ pr₁ hiter =>
    obtain ⟨pr₁', hiter', h₁⟩ := iterate_alike hp sub ρ h hiter
    rw [loop, hiter']
    exact ⟨pr₁', rfl, h₁⟩
  | case2 l pr l₁ pr₁ hiter =>
    obtain ⟨pr₁', hiter', h₁⟩ := iterate_alike hp sub ρ h hiter
    rw [loop, hiter']
    exact ⟨pr₁', rfl, h₁⟩
  | case3 l pr l₁ pr₁ hiter left ih =>
    obtain ⟨pr₁', hiter', h₁⟩ := iterate_alike hp sub ρ h hiter
    rw [loop, hiter']
    exact ih h₁

theorem run_alike {it : Iterate p} {pr pr₁ : Progress K σ} {pr' : Progress K τ} {r : InnerResult p}
    (h : Progress.Alike R pr pr') (hrun : run host o sub ρ it pr = (r, pr₁)) :
    ∃ pr₁', run host' (o.recording v keep) sub ρ it pr' = (r, pr₁') ∧
      Progress.Alike R pr₁ pr₁' := by
  obtain ⟨pr₁', hloop, h₁⟩ := loop_alike hp sub ρ (o.maxInner - 1) (start p ρ it) pr h
  rw [run] at hrun
  rw [hrun] at hloop h₁
  exact ⟨pr₁', hloop, h₁⟩

end InnerLoop

namespace Run

theorem loop_alike (sub : Subproblem p) (left : Nat) (ρ : K) (it : Iterate p) (pr : Progress K σ)
    {pr' : Progress K τ} (h : Progress.Alike R pr pr') :
    ∃ pr₁', loop host' (o.recording v keep) sub left ρ it pr' =
      ((loop host o sub left ρ it pr).1, pr₁') ∧
      Progress.Alike R (loop host o sub left ρ it pr).2 pr₁' := by
  fun_induction loop host o sub left ρ it pr generalizing pr' with
  | case1 left ρ it pr pr₁ check =>
    obtain ⟨pr₁', check', h₁⟩ := Progress.shouldAbort_alike hp h check
    rw [loop, check']
    exact ⟨pr₁', rfl, h₁⟩
  | case2 ρ it pr pr₁ check =>
    obtain ⟨pr₁', check', h₁⟩ := Progress.shouldAbort_alike hp h check
    rw [loop, check']
    exact ⟨pr₁', rfl, h₁⟩
  | case3 ρ it pr pr₁ check left r pr₂ level status hverdict =>
    obtain ⟨pr₁', check', h₁⟩ := Progress.shouldAbort_alike hp h check
    have hbegun : Progress.Alike R { pr₁ with outer := pr₁.outer + 1 }
      { pr₁' with outer := pr₁'.outer + 1 } :=
      ⟨congrArg (· + 1) h₁.outer, h₁.total, h₁.qpIterations, h₁.lastQp, h₁.history, h₁.rest⟩
    obtain ⟨pr₂', level', h₂⟩ := InnerLoop.run_alike hp sub ρ hbegun level
    have hverdict' : verdict (o.recording v keep) ρ r = some status := hverdict
    rw [loop, check']
    dsimp only
    rw [level']
    dsimp only
    rw [hverdict']
    exact ⟨pr₂', rfl, h₂⟩
  | case4 ρ it pr pr₁ check left r pr₂ level hverdict ρ' pr₃ =>
    rename_i ih
    obtain ⟨pr₁', check', h₁⟩ := Progress.shouldAbort_alike hp h check
    have hbegun : Progress.Alike R { pr₁ with outer := pr₁.outer + 1 }
      { pr₁' with outer := pr₁'.outer + 1 } :=
      ⟨congrArg (· + 1) h₁.outer, h₁.total, h₁.qpIterations, h₁.lastQp, h₁.history, h₁.rest⟩
    obtain ⟨pr₂', level', h₂⟩ := InnerLoop.run_alike hp sub ρ hbegun level
    have hverdict' : verdict (o.recording v keep) ρ r = none := hverdict
    have hraised : Progress.Alike R pr₃ { pr₂' with history := pr₂'.history ++ [ρ'] } :=
      ⟨h₂.outer, h₂.total, h₂.qpIterations, h₂.lastQp, congrArg (· ++ [ρ']) h₂.history, h₂.rest⟩
    rw [loop, check']
    dsimp only
    rw [level']
    dsimp only
    rw [hverdict']
    exact ih (report_alike hp hraised .penaltyUpdate r.point ρ')

end Run

end Loops

namespace Run

/-- Two outcomes agree in all but the records and the time taken. These, and what is left of the
surroundings, come from related ends. -/
structure EndAlike [Sub K] (R : Rest K σ → Rest K τ → Prop) (host : Host K σ) (host' : Host K τ)
    {n m : Nat} (r : Solution K n m × σ) (r' : Solution K n m × τ) : Prop where
  x : r'.1.x = r.1.x
  y : r'.1.y = r.1.y
  status : r'.1.status = r.1.status
  stationarity : r'.1.stationarity = r.1.stationarity
  stats : r'.1.stats = { r.1.stats with elapsed := r'.1.stats.elapsed, trace := r'.1.stats.trace }
  rest : ∃ t rs s t' rs' s', R (t, rs, s) (t', rs', s') ∧
    (r.1.stats.trace = rs ∧ r.1.stats.elapsed = (host.clock s).1 - t ∧ r.2 = (host.clock s).2) ∧
    (r'.1.stats.trace = rs' ∧ r'.1.stats.elapsed = (host'.clock s').1 - t' ∧
      r'.2 = (host'.clock s').2)

theorem EndAlike.solution_eq [Sub K] {R : Rest K σ → Rest K τ → Prop} {host : Host K σ}
    {host' : Host K τ} {n m : Nat} {r : Solution K n m × σ} {r' : Solution K n m × τ}
    (h : EndAlike R host host' r r') :
    r'.1 = { r.1 with
      stats := { r.1.stats with elapsed := r'.1.stats.elapsed, trace := r'.1.stats.trace } } := by
  rw [← h.stats]
  dsimp only
  rw [← h.x, ← h.y, ← h.status, ← h.stationarity]

variable [Zero K] [Add K] [Sub K] [Neg K] [Mul K] [LT K] [LE K] [DecidableLT K] [DecidableLE K]
  [OfScientific K] [Special K] {p : Problem K} {R : Rest K σ → Rest K τ → Prop} {host : Host K σ}
  {o : Options K} {host' : Host K τ} {v : Verbosity} {keep : Bool}
  (hp : Parallel R host o host' v keep)
include hp

omit [LE K] [DecidableLE K] [Special K] in
theorem close_alike {pr : Progress K σ} {pr' : Progress K τ} (h : Progress.Alike R pr pr')
    (e : Ending p) (kind : Stationarity) (stationarity : K) :
    EndAlike R host host' (close host o e kind stationarity pr)
      (close host' (o.recording v keep) e kind stationarity pr') := by
  unfold close
  rw [outerRecord_alike h]
  have hlast :=
    Progress.emit_alike hp h (r := outerRecord .terminated e.point e.penalty stationarity pr) rfl
  dsimp only [Progress.elapsed]
  refine ⟨rfl, rfl, rfl, rfl, ?_, _, _, _, _, _, _, hlast.rest, ⟨rfl, rfl, rfl⟩, rfl, rfl, rfl⟩
  simp only [Progress.emit, h.outer, h.total, h.qpIterations, h.lastQp, h.history]

theorem finish_alike {pr : Progress K σ} {pr' : Progress K τ} (h : Progress.Alike R pr pr')
    (e : Ending p) :
    EndAlike R host host' (finish host o e pr) (finish host' (o.recording v keep) e pr') := by
  unfold finish
  split
  · exact close_alike hp h _ _ _
  · exact close_alike hp h _ _ _

variable [One K] [Div K] [BEq K]

theorem fromPoint_alike {pr : Progress K σ} {pr' : Progress K τ} (h : Progress.Alike R pr pr')
    (sub : Subproblem p) (x0 : Option (Vec K p.vars)) (y0 : Option (Vec K p.duals)) (ρ : K) :
    EndAlike R host host' (fromPoint host o sub x0 y0 ρ pr)
      (fromPoint host' (o.recording v keep) sub x0 y0 ρ pr') := by
  have hfirst : Progress.Alike R { pr with history := pr.history ++ [ρ] }
    { pr' with history := pr'.history ++ [ρ] } :=
    ⟨h.outer, h.total, h.qpIterations, h.lastQp, congrArg (· ++ [ρ]) h.history, h.rest⟩
  have hzero : (o.recording v keep).zeroPenaltyFirst = o.zeroPenaltyFirst := rfl
  unfold fromPoint
  dsimp only
  rw [hzero]
  rcases solve : Progress.solveAt host sub (if x0.isNone && o.zeroPenaltyFirst then
      sub.unpenalized (x0.getD (Vec.zero _)) else sub.penalized (x0.getD (Vec.zero _)) ρ)
      (x0.getD (Vec.zero _)) (y0.getD (Vec.zero _))
        { pr with history := pr.history ++ [ρ] } with ⟨answer, pr₁⟩
  obtain ⟨pr₁', solve', h₁⟩ := Progress.solveAt_alike hp hfirst solve
  rw [solve']
  cases answer with
  | error st => exact close_alike hp h₁ _ _ _
  | ok a =>
    have hcount : Progress.Alike R { pr₁ with total := pr₁.total + 1 }
      { pr₁' with total := pr₁'.total + 1 } :=
      ⟨h₁.outer, congrArg (· + 1) h₁.total, h₁.qpIterations, h₁.lastQp, h₁.history, h₁.rest⟩
    obtain ⟨pr₂', hloop, h₂⟩ := loop_alike hp sub o.maxOuter ρ ⟨a.x, a.y⟩ _
      (report_alike hp hcount .initialization ⟨a.x, a.y⟩ ρ)
    have hlimit : (o.recording v keep).maxOuter = o.maxOuter := rfl
    dsimp only
    rw [hlimit, hloop]
    exact finish_alike hp h₂ _

/-- Runs in surroundings that answer alike take the same course. -/
theorem runFrom_alike [Root K] (p : Problem K) (w : WarmStart K) (s : σ) (s' : τ)
    (hstart : R ((host.clock s).1, [], (host.clock s).2)
      ((host'.clock s').1, [], (host'.clock s').2)) :
    EndAlike R host host' (runFrom host o p w s) (runFrom host' (o.recording v keep) p w s') := by
  have h : Progress.Alike R (.start host s) (.start host' s') := ⟨rfl, rfl, rfl, rfl, rfl, hstart⟩
  have hcert (x : Vec K p.vars) (y : Vec K p.duals) :
      p.certified (o.recording v keep) x y = p.certified o x y := rfl
  have hbuild : Subproblem.build p host'.backend.needsDefinite (o.recording v keep) =
      Subproblem.build p host.backend.needsDefinite o := by
    rw [hp.needsDefinite]
    rfl
  unfold runFrom
  simp only [hcert, hbuild]
  split
  · exact close_alike hp h _ _ _
  · exact close_alike hp h _ _ _
  · split
    · exact close_alike hp h _ _ _
    · split
      · exact close_alike hp h _ _ _
      · exact fromPoint_alike hp h _ _ _ _

end Run

section Covers

/-- Seen through `f`, the surroundings `fine` do what `host` does. -/
structure Host.Covers (f : τ → σ) (fine : Host K τ) (host : Host K σ) : Prop where
  needsDefinite : fine.backend.needsDefinite = host.backend.needsDefinite
  solve {n m : Nat} (qp : Qp K n m) (hint : Option (Hint K)) (t : τ) :
    host.backend.solve qp hint (f t) = (fine.backend.solve qp hint t).map id f
  observe (r : Record K) (t : τ) : host.observe r (f t) = f (fine.observe r t)
  cancelled (t : τ) : host.cancelled (f t) = (fine.cancelled t).map id f
  clock (t : τ) : host.clock (f t) = (fine.clock t).map id f

variable {f : τ → σ} {fine : Host K τ} {host : Host K σ} (hc : Host.Covers f fine host)
include hc

theorem Host.Covers.parallel [Sub K] [LT K] [DecidableLT K] (o : Options K) :
    Parallel (fun rest rest' => rest' = (rest.1, rest.2.1, f rest.2.2)) fine o host o.verbosity
      o.storeSteps where
  needsDefinite := hc.needsDefinite.symm
  solve qp hint h := by
    cases h
    rw [hc.solve]
    exact ⟨rfl, rfl⟩
  cancelled h := by
    cases h
    rw [hc.cancelled]
    exact ⟨rfl, rfl⟩
  overtime limit _ h := by
    cases h
    rw [hc.clock]
    exact ⟨rfl, rfl⟩
  record r h := by
    cases h
    cases hshows : o.verbosity.shows r with
    | false => simp [Host.shown, hshows]
    | true => simp [Host.shown, hshows, hc.observe]

variable [Zero K] [One K] [Add K] [Sub K] [Neg K] [Mul K] [Div K] [LT K] [LE K] [DecidableLT K]
  [DecidableLE K] [OfScientific K] [Special K] [BEq K]

/-- The run in `host` is the run in `fine`, seen through `f`. -/
theorem Run.runFrom_map [Root K] (o : Options K) (p : Problem K) (w : WarmStart K) (t : τ) :
    runFrom host o p w (f t) = (runFrom fine o p w t).map id f := by
  have halike := runFrom_alike (hc.parallel o) p w t (f t) (by rw [hc.clock]; rfl)
  have hsolution := halike.solution_eq
  obtain ⟨_, _, _, _, _, _, hrest, ⟨htrace, helapsed, hstate⟩, htrace', helapsed', hstate'⟩ :=
    halike.rest
  cases hrest
  rw [hc.clock] at helapsed' hstate'
  rw [helapsed', htrace', ← htrace] at hsolution
  refine Prod.ext (hsolution.trans ?_) (hstate'.trans ?_)
  · rw [Prod.map_fst, Prod.map_fst, id, id, ← helapsed]
  · rw [Prod.map_snd, Prod.map_snd, hstate]

end Covers

end ComplementarityQP
