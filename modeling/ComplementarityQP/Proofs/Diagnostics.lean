import ComplementarityQP.Proofs.Exact
import ComplementarityQP.Proofs.Simulation

/-! Runs that are watched. Main statement: which records are shown, to whom, and whether they are
kept, makes no difference to a run, and what a watcher receives are the records kept, less those
that the verbosity holds back. -/
namespace ComplementarityQP

variable {K σ β τ τ' γ : Type}

def Options.unkept (o : Options K) (v : Verbosity) : Options K :=
  { o with verbosity := v, storeSteps := false }

def Solution.untraced {n m : Nat} (sol : Solution K n m) : Solution K n m :=
  { sol with stats := { sol.stats with trace := [] } }

def Verbosity.passed (v : Verbosity) (records : List (Record K)) : List (Record K) :=
  match v with
  | .none => []
  | .outer => records.filter Record.isOuter
  | .inner | .subproblem => records

theorem Verbosity.passed_append (v : Verbosity) (records : List (Record K)) (r : Record K) :
    v.passed (records ++ [r]) =
      if v.shows r then v.passed records ++ [r] else v.passed records := by
  cases v with
  | none => rfl
  | outer =>
    rw [passed, List.filter_append, shows]
    cases hr : r.isOuter with
    | false => simp [hr, passed]
    | true => simp [hr, passed]
  | inner => rfl
  | subproblem => rfl

/-- What goes along with a run, with a state of its own: an observer of its records, and a clock.
Both may see the state of the solver and of the request to stop, `β`. -/
structure Watch (K β τ : Type) where
  observe : Record K → β → τ → τ
  clock : β → τ → K × τ

def Watch.remembering (clock : β → γ → K × γ) : Watch K β (List (Record K) × γ) where
  observe r _ t := (t.1 ++ [r], t.2)
  clock b t :=
    let (now, c) := clock b t.2
    (now, t.1, c)

namespace Host

/-- Surroundings where nothing but the solver and the request to stop touches the state of these
two. -/
def watched (backend : Backend K β) (token : β → Bool × β) (watch : Watch K β τ) :
    Host K (β × τ) where
  backend := backend.within Prod.fst fun b t => (b, t.2)
  observe r t := (t.1, watch.observe r t.1 t.2)
  cancelled t :=
    let (cancelled, b) := token t.1
    (cancelled, b, t.2)
  clock t :=
    let (now, rest) := watch.clock t.1 t.2
    (now, t.1, rest)

variable [Sub K] [LT K] [DecidableLT K] {o : Options K}

/-- Without a time limit, surroundings with the same solver and the same requests answer alike,
whoever watches. -/
theorem watched_parallel (backend : Backend K β) (token : β → Bool × β) (watch : Watch K β τ)
    (watch' : Watch K β τ') (v : Verbosity) (keep : Bool)
    {Q : List (Record K) → τ → List (Record K) → τ' → Prop} (hlimit : o.timeLimit = none)
    (hQ : ∀ {r b rs t rs' t'}, Q rs t rs' t' → Q (kept o.storeSteps r rs)
      (if o.verbosity.shows r then watch.observe r b t else t) (kept keep r rs')
      (if v.shows r then watch'.observe r b t' else t')) :
    Parallel (fun rest rest' => rest'.2.2.1 = rest.2.2.1 ∧
      Q rest.2.1 rest.2.2.2 rest'.2.1 rest'.2.2.2)
      (watched backend token watch) o (watched backend token watch') v keep where
  needsDefinite := rfl
  solve {_ _ _ _ _ _ s s'} qp hint := by
    rintro ⟨hstate, hrest⟩
    obtain ⟨b, t⟩ := s
    obtain ⟨b', t'⟩ := s'
    cases hstate
    exact ⟨rfl, rfl, hrest⟩
  cancelled {_ _ _ _ s s'} := by
    rintro ⟨hstate, hrest⟩
    obtain ⟨b, t⟩ := s
    obtain ⟨b', t'⟩ := s'
    cases hstate
    exact ⟨rfl, rfl, hrest⟩
  overtime limit hlimited := by
    rw [hlimit] at hlimited
    cases hlimited
  record {_ _ _ _ s s'} r := by
    rintro ⟨hstate, hrest⟩
    obtain ⟨b, t⟩ := s
    obtain ⟨b', t'⟩ := s'
    cases hstate
    have hnext := @hQ r b _ _ _ _ hrest
    cases hshows : o.verbosity.shows r <;> cases hshows' : v.shows r <;>
      simpa [shown, hshows, hshows', watched] using hnext

/-- The memory of an observer and the records kept grow together. -/
theorem remembering_parallel (backend : Backend K β) (token : β → Bool × β) (clock : β → γ → K × γ)
    (watch : Watch K β τ') (before : List (Record K)) (v : Verbosity)
    (hlimit : o.timeLimit = none) :
    Parallel (fun rest rest' => rest'.2.2.1 = rest.2.2.1 ∧
      rest.2.2.2.1 = before ++ o.verbosity.passed rest'.2.1)
      (watched backend token (.remembering clock)) o (watched backend token watch) v true := by
  refine watched_parallel backend token _ watch v true
    (Q := fun _ (memory : List (Record K) × γ) rs _ => memory.1 = before ++ o.verbosity.passed rs)
    hlimit ?_
  intro r b _ memory rs _ hmemory
  have hkept : kept true r rs = rs ++ [r] := rfl
  rw [hkept, Verbosity.passed_append]
  split
  · simp [Watch.remembering, hmemory]
  · exact hmemory

end Host

variable [Zero K] [One K] [Add K] [Sub K] [Neg K] [Mul K] [Div K] [LT K] [LE K] [DecidableLT K]
  [DecidableLE K] [OfScientific K] [Special K] [BEq K] [Root K]

namespace Run

/-- The run that keeps nothing is the run that keeps its records, without them. -/
theorem runFrom_unkept {host : Host K σ} {o : Options K} {v : Verbosity}
    (hv : ∀ r s, host.shown v r s = host.shown o.verbosity r s) (p : Problem K) (w : WarmStart K)
    (s : σ) :
    runFrom host (o.unkept v) p w s = (runFrom host o p w s).map Solution.untraced id := by
  have hp : Parallel (fun rest rest' => rest' = (rest.1, [], rest.2.2)) host o host v false := by
    refine ⟨rfl, ?_, ?_, ?_, ?_⟩
    · rintro _ _ _ _ _ _ _ _ qp hint ⟨⟩
      exact ⟨rfl, rfl⟩
    · rintro _ _ _ _ _ _ ⟨⟩
      exact ⟨rfl, rfl⟩
    · rintro _ _ _ _ _ _ limit - ⟨⟩
      exact ⟨rfl, rfl⟩
    · rintro _ _ _ _ s _ r ⟨⟩
      simp [kept, hv]
  have halike := runFrom_alike hp p w s s rfl
  have hsolution := halike.solution_eq
  obtain ⟨_, _, _, _, _, _, hrest, ⟨-, helapsed, hstate⟩, htrace', helapsed', hstate'⟩ :=
    halike.rest
  cases hrest
  rw [htrace', helapsed', ← helapsed] at hsolution
  exact Prod.ext hsolution (hstate'.trans hstate.symm)

variable (backend : Backend K β) (token : β → Bool × β) (o : Options K) (p : Problem K)
  (w : WarmStart K) (b : β)

/-- Whoever watches a run, it comes to the same result. An observer that remembers has received, in
order, the records that any run of this kind keeps, as far as its own verbosity lets them
through. -/
theorem outcome_ignores_diagnostics (watch : Watch K β τ) (t : τ) (watch' : Watch K β τ') (t' : τ')
    (clock : β → γ → K × γ) (c : γ) (before : List (Record K)) (v : Verbosity) (keep : Bool)
    (hlimit : o.timeLimit = none) :
    let sol := (runFrom (.watched backend token watch) o p w (b, t)).1
    let sol' :=
      (runFrom (.watched backend token watch') { o with verbosity := v, storeSteps := keep } p w
        (b, t')).1
    let memory := (runFrom (.watched backend token (.remembering clock)) o p w (b, before, c)).2.2.1
    (sol'.x = sol.x ∧ sol'.y = sol.y ∧ sol'.status = sol.status ∧
      sol'.stationarity = sol.stationarity ∧
      sol'.stats = { sol.stats with elapsed := sol'.stats.elapsed, trace := sol'.stats.trace }) ∧
    (keep = true → memory = before ++
      match o.verbosity with
      | .none => []
      | .outer => sol'.stats.trace.filter Record.isOuter
      | .inner | .subproblem => sol'.stats.trace) := by
  intro sol sol' memory
  refine ⟨?_, fun hkeep => ?_⟩
  · have hp :=
      Host.watched_parallel backend token watch watch' v keep (Q := fun _ _ _ _ => True) hlimit
      fun _ => trivial
    have halike := runFrom_alike hp p w (b, t) (b, t') ⟨rfl, trivial⟩
    exact ⟨halike.x, halike.y, halike.status, halike.stationarity, halike.stats⟩
  · subst hkeep
    have hnone : before = before ++ o.verbosity.passed [] := by
      cases o.verbosity <;> simp [Verbosity.passed]
    obtain ⟨_, _, _, _, _, _, ⟨-, hmemory⟩, ⟨-, -, hstate⟩, htrace, -⟩ :=
      (runFrom_alike (Host.remembering_parallel backend token clock watch' before v hlimit) p w
        (b, before, c) (b, t') ⟨rfl, hnone⟩).rest
    calc memory = _ := congrArg (fun s => s.2.1) hstate
      _ = before ++ o.verbosity.passed _ := hmemory
      _ = before ++ o.verbosity.passed sol'.stats.trace := by rw [← htrace]; rfl

end Run

/-- Of the warm-up run, an observer of outer records remembers two: the start and the end. -/
theorem Run.outcome_ignores_diagnostics_warmUp :
    let backend : Backend ℚ Nat := .scripted true [some ⟨#[1, 0], #[0, -2], .solved, 1⟩]
    let host := Host.watched backend (fun b => (false, b)) (.remembering fun _ c => (0, c))
    let o : Options ℚ := .default
    let memory := (runFrom host o Problem.warmUp ⟨none, none, none⟩ (0, [], ())).2.2.1
    let sol :=
      (runFrom host { o with verbosity := .none, storeSteps := true } Problem.warmUp
        ⟨none, none, none⟩
      (0, [], ())).1
    o.timeLimit = none ∧ memory.length = 2 ∧ sol.stats.trace.length = 3 ∧
      memory = sol.stats.trace.filter Record.isOuter := by
  intro backend host o memory sol
  refine ⟨rfl, by decide +kernel, by decide +kernel, ?_⟩
  have hmemory :=
    (outcome_ignores_diagnostics backend (fun b => (false, b)) o Problem.warmUp ⟨none, none, none⟩ 0
    (.remembering fun _ c => (0, c)) ([], ()) (.remembering fun _ c => (0, c)) ([], ())
    (fun _ c => (0, c)) ()
    [] .none true rfl).2 rfl
  exact hmemory

end ComplementarityQP
