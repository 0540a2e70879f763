import ComplementarityQP.Proofs.Replay
import ComplementarityQP.Session

/-! Tokens: requests to stop that nobody takes back. What the dealings of a run do to the calls that
are started and to the alarm that a record of the inner loop may raise. -/
namespace ComplementarityQP

variable {K σ : Type}

section Lists
variable {α : Type} {before events added : List α} {e e' : α}

theorem prefix_concat (h : before ++ [e] <+: events ++ [e']) :
    before ++ [e] <+: events ∨ before = events ∧ e = e' := by
  obtain h | h := List.prefix_concat_iff.mp h
  · exact .inr (List.append_singleton_inj.mp h)
  · exact .inl h

theorem prefix_of_append {P : α → Bool} (h : before ++ [e] <+: events ++ added) (he : P e = true)
    (hadded : ∀ e ∈ added, P e = false) : before ++ [e] <+: events := by
  induction added generalizing events with
  | nil => simpa using h
  | cons e' added ih =>
    rw [List.append_cons events] at h
    obtain h | ⟨-, rfl⟩ := prefix_concat (ih h fun e he => hadded e (List.mem_cons_of_mem _ he))
    · exact h
    · rw [hadded e List.mem_cons_self] at he
      cases he

end Lists

def Event.isInner : Event K → Bool
  | shown r => r.phase = .inner
  | _ => false

theorem Check.plain [Sub K] [LT K] [DecidableLT K] {o : Options K} {started : K} {b : Bool}
    {check : List (Event K)} (h : Check o started b check) :
    ∀ e ∈ check, e.isCall = false ∧ e.isInner = false := by
  cases h with
  | cancelled => simp [Event.isCall, Event.isInner]
  | unlimited limit => simp [Event.isCall, Event.isInner]
  | timed limited => simp [Event.isCall, Event.isInner]

/-- Requests to stop by a token in the state. Nobody resets it, and during a run none but the
observer sets it. -/
structure Host.Token (host : Host K σ) (token : σ → Bool) : Prop where
  solve {n m : Nat} (qp : Qp K n m) (hint : Option (Hint K)) (s : σ) :
    token (host.backend.solve qp hint s).2 = token s
  observe (r : Record K) (s : σ) : token s = true → token (host.observe r s) = true
  cancelled (s : σ) : (host.cancelled s).1 = token s ∧ token (host.cancelled s).2 = token s
  clock (s : σ) : token (host.clock s).2 = token s

theorem Host.Token.replay {host : Host K σ} {token : σ → Bool} (htoken : host.Token token) {s : σ}
    (h : token s = true) (events : List (Event K)) : token (host.replay s events) = true := by
  induction events generalizing s with
  | nil => exact h
  | cons e events ih =>
    refine ih ?_
    cases e with
    | called qp hint answer => exact (htoken.solve qp hint s).trans h
    | polled b => exact (htoken.cancelled s).2.trans h
    | timed now => exact (htoken.clock s).trans h
    | shown r => exact htoken.observe r s h

/-- A session that is cancelled stays so, whoever solves and whatever its observer does. -/
theorem Session.host_token (s : Session) : s.host.Token World.cancelled where
  solve qp hint w := by
    cases hb : s.backend with
    | fromOptions =>
      cases hm : s.options.method with
      | denseActiveSet =>
        simp [host, solver, hb, standard, Backend.ofMethod, hm, Backend.denseActiveSet]
      | sparseInteriorPoint =>
        simp [host, solver, hb, standard, Backend.ofMethod, hm, Backend.interiorPoint]
    | failing budget status => simp [host, solver, hb, counted, Backend.within]
    | scripted needsDefinite lines => simp [host, solver, hb, counted, Backend.within]
  observe r w h := by
    cases ho : s.observer with
    | ignore => simpa [host, ho, observe] using h
    | keep limit => simp [host, ho, observe, h]
  cancelled _ := ⟨rfl, rfl⟩
  clock _ := rfl

/-- No call is started with the token set, but for the first if the token is set from the start. -/
def Guarded (host : Host K σ) (token : σ → Bool) (s : σ) (events : List (Event K)) : Prop :=
  ∀ before call, before ++ [call] <+: events → call.isCall = true →
    token (host.replay s before) = true →
    calls before = [] ∧ token s = true

theorem Guarded.append {host : Host K σ} {token : σ → Bool} {s : σ} {events added : List (Event K)}
    (h : Guarded host token s events) (hadded : ∀ e ∈ added, e.isCall = false) :
    Guarded host token s (events ++ added) :=
  fun before call hbegins hcall => h before call (prefix_of_append hbegins hcall hadded) hcall

/-- After the events `before`, the token was set while the record `r` of an inner iteration was
shown. -/
structure Alarm (host : Host K σ) (token : σ → Bool) (s : σ) (events before : List (Event K))
    (r : Record K) : Prop where
  shown : before ++ [.shown r] <+: events
  inner : r.phase = .inner
  set : token (host.replay s (before ++ [.shown r])) = true

namespace Alarm
variable {host : Host K σ} {token : σ → Bool} {s : σ} {events before added : List (Event K)}
  {r : Record K}

theorem isInner (h : Alarm host token s events before r) : (Event.shown r).isInner = true := by
  simp [Event.isInner, h.inner]

theorem of_append (h : Alarm host token s (events ++ added) before r)
    (hadded : ∀ e ∈ added, e.isInner = false) :
    Alarm host token s events before r :=
  ⟨prefix_of_append h.shown h.isInner hadded, h.inner, h.set⟩

theorem token_eq (htoken : host.Token token) (h : Alarm host token s events before r) :
    token (host.replay s events) = true := by
  obtain ⟨after, hafter⟩ := h.shown
  rw [← hafter, Host.replay_append]
  exact htoken.replay h.set after

end Alarm

namespace Progress
variable {host : Host K σ} {token : σ → Bool} {s : σ} {o : Options K}
  {pr pr' : Progress K (σ × List (Event K))}

/-- The journal is true, and its calls were guarded. -/
structure Heeds (host : Host K σ) (token : σ → Bool) (s : σ)
    (pr : Progress K (σ × List (Event K))) : Prop where
  state : pr.state.1 = host.replay s pr.events
  guarded : Guarded host token s pr.events

def Calm (host : Host K σ) (token : σ → Bool) (s : σ) (pr : Progress K (σ × List (Event K))) :
    Prop :=
  ∀ before r, ¬Alarm host token s pr.events before r

theorem Heeds.congr (h : pr.Heeds host token s) (hstate : pr'.state = pr.state) :
    pr'.Heeds host token s := by
  refine ⟨?_, ?_⟩
  · rw [events, hstate]
    exact h.state
  · rw [events, hstate]
    exact h.guarded

theorem Calm.congr (h : pr.Calm host token s) (hstate : pr'.state = pr.state) :
    pr'.Calm host token s := by
  intro before r
  rw [events, hstate]
  exact h before r

theorem Heeds.emit (h : pr.Heeds host token s) (r : Record K) :
    (pr.emit host.journaled o r).Heeds host token s := by
  obtain ⟨added, hadded, hidle⟩ := events_emit host o pr r
  refine ⟨(host.journaled_keeps_replay s).emit h.state r, ?_⟩
  rw [hadded]
  exact h.guarded.append fun e he => (hidle e he).1

theorem Heeds.shouldAbort [Sub K] [LT K] [DecidableLT K] (h : pr.Heeds host token s) {b : Bool}
    (check : pr.shouldAbort host.journaled o = (b, pr')) : pr'.Heeds host token s := by
  obtain ⟨added, hadded, hcheck⟩ := events_shouldAbort check
  refine ⟨(host.journaled_keeps_replay s).shouldAbort h.state check, ?_⟩
  rw [hadded]
  exact h.guarded.append fun e he => (hcheck.plain e he).1

/-- A run goes on after a check only while the token is not set. -/
theorem token_of_goes [Sub K] [LT K] [DecidableLT K] (htoken : host.Token token)
    (check : pr.shouldAbort host.journaled o = (false, pr')) :
    token pr.state.1 = false ∧ token pr'.state.1 = false := by
  obtain ⟨hpoll, hkept⟩ := htoken.cancelled pr.state.1
  unfold Progress.shouldAbort at check
  rcases hc : host.cancelled pr.state.1 with ⟨_ | _, t⟩
  · have hjournal : host.journaled.cancelled pr.state =
      (false, t, pr.state.2 ++ [.polled false]) := by
      simp only [Host.journaled, hc]
    rw [hc] at hpoll hkept
    -- After the poll only the clock is read, which does not touch the token.
    have hunset : token t = false := hkept.trans hpoll.symm
    rw [hjournal] at check
    dsimp only at check
    split at check
    · cases check
      exact ⟨hpoll.symm, hunset⟩
    · obtain ⟨-, rfl⟩ := Prod.mk.inj check
      exact ⟨hpoll.symm, (htoken.clock t).trans hunset⟩
  · have hjournal : host.journaled.cancelled pr.state =
      (true, t, pr.state.2 ++ [.polled true]) := by
      simp only [Host.journaled, hc]
    rw [hjournal] at check
    cases check

theorem Heeds.calm (h : pr.Heeds host token s) (htoken : host.Token token)
    (hunset : token pr.state.1 = false) :
    pr.Calm host token s := by
  intro before r halarm
  have hset := halarm.token_eq htoken
  rw [← h.state, hunset] at hset
  cases hset

theorem heeds_start (host : Host K σ) (token : σ → Bool) (s : σ) :
    (start host.journaled (s, [])).Heeds host token s ∧
      (start host.journaled (s, [])).Calm host token s := by
  have hnone : Guarded host token s [] := fun before call hbegins => by simp at hbegins
  have htimed : Guarded host token s ([] ++ [.timed (host.clock s).1]) :=
    hnone.append (by simp [Event.isCall])
  refine ⟨⟨rfl, htimed⟩, fun before r halarm => ?_⟩
  change Alarm host token s ([] ++ [.timed (host.clock s).1]) before r at halarm
  have hshown := (halarm.of_append (by simp [Event.isInner])).shown
  simp at hshown

section Solve
variable [Zero K] [One K] [Add K] [Sub K] [Neg K] [Mul K] [Div K] [LT K] [LE K] [DecidableLT K]
  [DecidableLE K] [OfScientific K] [Special K] [BEq K] {p : Problem K} {sub : Subproblem p}
  {qp : Qp K p.vars p.duals} {x : Vec K p.vars} {y : Vec K p.duals}

theorem Heeds.solveAt (h : pr.Heeds host token s)
    {answer : Except (Option QpStatus) (Answer K p.vars p.duals)}
    (hgoes : token pr.state.1 = true → calls pr.events = [] ∧ token s = true)
    (solve : pr.solveAt host.journaled sub qp x y = (answer, pr')) : pr'.Heeds host token s := by
  refine ⟨(host.journaled_keeps_replay s).solveAt h.state solve,
    fun before call hbegins hcall hset => ?_⟩
  rw [events_of_call solve] at hbegins
  obtain hbegins | ⟨rfl, -⟩ := prefix_concat hbegins
  · exact h.guarded before call hbegins hcall hset
  · exact hgoes (h.state ▸ hset)

theorem Calm.solveAt (h : pr.Calm host token s)
    {answer : Except (Option QpStatus) (Answer K p.vars p.duals)}
    (solve : pr.solveAt host.journaled sub qp x y = (answer, pr')) : pr'.Calm host token s := by
  intro before r halarm
  rw [events_of_call solve] at halarm
  exact h before r (halarm.of_append (by simp [Event.isInner]))

/-- A call after a check that lets the run go on. -/
theorem Heeds.goes (h : pr.Heeds host token s) (htoken : host.Token token)
    {pr₁ : Progress K (σ × List (Event K))}
    {answer : Except (Option QpStatus) (Answer K p.vars p.duals)}
    (check : pr.shouldAbort host.journaled o = (false, pr₁))
    (solve : pr₁.solveAt host.journaled sub qp x y = (answer, pr')) :
    pr'.Heeds host token s ∧ pr'.Calm host token s := by
  have hchecked := h.shouldAbort check
  have hunset := (token_of_goes htoken check).2
  refine ⟨hchecked.solveAt (fun hset => ?_) solve, (hchecked.calm htoken hunset).solveAt solve⟩
  cases hset.symm.trans hunset

end Solve

theorem alarm_of_shouldAbort [Sub K] [LT K] [DecidableLT K] {b : Bool}
    (check : pr.shouldAbort host.journaled o = (b, pr')) {before : List (Event K)} {r : Record K}
    (halarm : Alarm host token s pr'.events before r) : Alarm host token s pr.events before r := by
  obtain ⟨added, hadded, hcheck⟩ := events_shouldAbort check
  rw [hadded] at halarm
  exact halarm.of_append fun e he => (hcheck.plain e he).2

/-- A record raises an alarm only if it is of the inner loop. -/
theorem alarm_of_emit {r r' : Record K} {before : List (Event K)}
    (halarm : Alarm host token s (pr.emit host.journaled o r').events before r) :
    Alarm host token s pr.events before r ∨ r'.phase = .inner ∧ r = r' ∧ before = pr.events := by
  rw [emit_events] at halarm
  split at halarm
  · obtain hbegins | ⟨rfl, he⟩ := prefix_concat halarm.shown
    · exact .inl ⟨hbegins, halarm.inner, halarm.set⟩
    · cases he
      exact .inr ⟨halarm.inner, rfl, rfl⟩
  · rw [List.append_nil] at halarm
    exact .inl halarm

end Progress

end ComplementarityQP
