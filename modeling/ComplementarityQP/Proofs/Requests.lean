import ComplementarityQP.Proofs.Replay

/-! The calls that a run makes. Main statement: every program that it asks the solver for has the
rows of its problem. -/
namespace ComplementarityQP

variable {K σ : Type} {p : Problem K} {host : Host K σ} {o : Options K}

/-- The calls among the events are of programs with the rows of the problem, and have the answers of
the solver. -/
def Requests (host : Host K σ) (p : Problem K) (events : List (Event K)) : Prop :=
  ∀ e ∈ calls events, ∃ (qp : Qp K p.vars p.duals) (hint : Option (Hint K)) (s : σ),
    qp.rows = p.stacked ∧
    e = .called qp hint (host.backend.solve qp hint s).1

theorem Requests.congr {events events' : List (Event K)} (h : Requests host p events)
    (hcalls : calls events' = calls events) : Requests host p events' := by
  unfold Requests
  rw [hcalls]
  exact h

theorem Run.requests_start (host : Host K σ) (p : Problem K) (s : σ) :
    Requests host p (Progress.start host.journaled (s, [])).events := nofun

section Dealings
variable {pr pr' : Progress K (σ × List (Event K))}

theorem Requests.shouldAbort [Sub K] [LT K] [DecidableLT K] {b : Bool}
    (h : Requests host p pr.events) (check : pr.shouldAbort host.journaled o = (b, pr')) :
    Requests host p pr'.events :=
  h.congr (Progress.calls_of_shouldAbort check)

theorem Requests.emit (h : Requests host p pr.events) (r : Record K) :
    Requests host p (pr.emit host.journaled o r).events :=
  h.congr (Progress.calls_of_emit host o pr r)

end Dealings

variable [Zero K] [One K] [Add K] [Sub K] [Neg K] [Mul K] [Div K] [LT K] [LE K] [DecidableLT K]
  [DecidableLE K] [OfScientific K] [Special K] [BEq K] {sub : Subproblem p}

theorem Requests.solveAt {pr pr' : Progress K (σ × List (Event K))} {c x : Vec K p.vars}
    {y : Vec K p.duals} {answer : Except (Option QpStatus) (Answer K p.vars p.duals)}
    (h : Requests host p pr.events)
    (solve : pr.solveAt host.journaled sub (sub.program c) x y = (answer, pr')) :
    Requests host p pr'.events := by
  unfold Requests
  rw [Progress.events_of_call solve, calls_append]
  refine List.forall_mem_append.mpr ⟨h, ?_⟩
  intro e he
  obtain rfl := List.mem_singleton.mp he
  exact ⟨sub.program c, _, _, rfl, rfl⟩

namespace InnerLoop
variable {ρ : K} {pr pr' : Progress K (σ × List (Event K))}

theorem requests_iterate {l l' : InnerLoop p} {st : Option InnerStatus}
    (h : Requests host p pr.events) (hiter : l.iterate host.journaled o sub ρ pr = (st, l', pr')) :
    Requests host p pr'.events := by
  cases iterate_outcome hiter with
  | aborted check => exact h.shouldAbort check
  | failed check solve => exact (h.shouldAbort check).solveAt solve
  | stepped check solve report exit =>
    rw [report]
    exact Requests.emit ((h.shouldAbort check).solveAt solve) _

theorem requests_run {it : Iterate p} {r : InnerResult p} (h : Requests host p pr.events)
    (level : run host.journaled o sub ρ it pr = (r, pr')) : Requests host p pr'.events := by
  obtain ⟨-, -, hl⟩ :=
    run_invariant (I := fun _ pr => Requests host p pr.events) requests_iterate level h
  exact hl

end InnerLoop

namespace Run
variable {s : σ}

theorem requests_first {x0 : Option (Vec K p.vars)} {y0 : Option (Vec K p.duals)} {ρ : K}
    {answer : Except (Option QpStatus) (Answer K p.vars p.duals)}
    {pr' : Progress K (σ × List (Event K))}
    (solve : firstSolve host.journaled o sub x0 y0 ρ (.start host.journaled (s, [])) =
      (answer, pr')) :
    Requests host p pr'.events := by
  unfold firstSolve firstQp at solve
  split at solve
  · refine Requests.solveAt ?_ solve
    exact requests_start host p s
  · refine Requests.solveAt ?_ solve
    exact requests_start host p s

theorem requests_level {h : Head p (σ × List (Event K))} (hh : Requests host p h.progress.events)
    {b : Bool} {pr₁ pr : Progress K (σ × List (Event K))}
    (check : h.progress.shouldAbort host.journaled o = (b, pr₁)) {r : InnerResult p}
    (level : InnerLoop.run host.journaled o sub h.penalty h.point
      { pr₁ with outer := pr₁.outer + 1 } = (r, pr)) : Requests host p pr.events := by
  have hchecked := hh.shouldAbort check
  refine InnerLoop.requests_run ?_ level
  exact hchecked

variable [Root K] {w : WarmStart K}

omit [Root K] in
theorem requests_turn {h h' : Head p (σ × List (Event K))} (hh : Requests host p h.progress.events)
    (hturn : h.turn host.journaled o sub = .raised h') : Requests host p h'.progress.events := by
  cases turn_cause hturn with
  | raised check left level verdict =>
    have hlevel := requests_level hh check level
    refine Requests.emit ?_ _
    exact hlevel

theorem Visits.requests {h : Head p (σ × List (Event K))}
    (hv : Visits host.journaled o p w (s, []) sub h) :
    Requests host p h.progress.events := by
  obtain ⟨first, ⟨admitted, build, solve⟩, hr⟩ := hv
  exact hr.invariant (I := fun h => Requests host p h.progress.events) requests_turn
    (Requests.emit (requests_first solve) _)

theorem requests_of_course {out : Solution K p.vars p.duals × σ × List (Event K)}
    (course : Course host.journaled o p w (s, []) out) : Requests host p out.2.2 := by
  have hstart := requests_start host p s
  cases course with
  | rejected start => exact hstart.congr (calls_of_fail _ _)
  | certified hx hy certified => exact hstart.congr (calls_of_close _ _ _ _)
  | unbuildable admitted build => exact hstart.congr (calls_of_fail _ _)
  | unsolved admitted build solve => exact (requests_first solve).congr (calls_of_fail _ _)
  | halted visits turn =>
    refine Requests.congr ?_ (calls_of_finish _ _)
    cases turn_cause turn with
    | aborted check => exact visits.requests.shouldAbort check
    | limit check left => exact visits.requests.shouldAbort check
  | settled visits turn =>
    refine Requests.congr ?_ (calls_of_finish _ _)
    cases turn_cause turn with
    | settled check left level verdict => exact requests_level visits.requests check level

theorem requests_journal (host : Host K σ) (o : Options K) (p : Problem K) (w : WarmStart K)
    (s : σ) :
    Requests host p (journal host o p w s) :=
  requests_of_course (runFrom_course host.journaled o p w (s, []))

end Run

end ComplementarityQP
