import ComplementarityQP.Run.Outer

/-! Sessions: a problem, a solver with a cancellation token and an observer, and commands to
them. -/
namespace ComplementarityQP

structure World where
  /-- Calls of the solver. -/
  calls : Nat
  /-- Records that the observer has kept. -/
  records : List (Record Float)
  cancelled : Bool
  /-- Readings of the clock. -/
  ticks : Nat

inductive Observer where
  | ignore
  /-- Keeps them, and cancels once there are `limit` of them. -/
  | keep (limit : Option Nat)

inductive BackendChoice where
  /-- The solver that the options name. -/
  | fromOptions
  | failing (budget : Nat) (status : Option QpStatus)
  | scripted (needsDefinite : Bool) (lines : List (Option (Backend.Line Float)))

structure Session where
  problem : Problem Float
  options : Options Float
  backend : BackendChoice
  observer : Observer
  world : World
  last : Option ((n m : Nat) × Solution Float n m)

inductive Command where
  | run
  /-- Solves afresh with the options alone. -/
  | solve
  | runFrom (w : WarmStart Float)
  /-- Goes on from the last solution. -/
  | resume
  /-- Makes the last solution the problem's initial guess. -/
  | rewarm
  | setStart (x0 y0 : Option (Array Float))
  | inner (ρ : Float) (x y : Array Float)
  | cancel
  | records
  | info

inductive Reply where
  | solution (s : (n m : Nat) × Solution Float n m)
  | inner (p : Problem Float) (r : InnerResult p)
  | done
  | cancelled
  | records (rs : List (Record Float))
  | info (backend : String) (cancelled : Bool)
  | fault (f : Fault Float)
  /-- The command needs a solution, and there is none yet. -/
  | noSolution

def World.start : World := ⟨0, [], false, 0⟩

namespace Session

def start (problem : Problem Float) (options : Options Float) (backend : BackendChoice)
    (observer : Observer) :
    Except (Fault Float) Session := do
  options.validate
  pure { problem, options, backend, observer, world := World.start, last := none }

/-- Time passes by a microsecond a reading. -/
def clock (w : World) : Float × World := (w.ticks.toFloat * 1e-6, { w with ticks := w.ticks + 1 })

def observe : Observer → Record Float → World → World
  | .ignore, _, w => w
  | .keep limit, r, w =>
    let records := w.records ++ [r]
    { w with records, cancelled := w.cancelled || limit.any (· ≤ records.length) }

def counted (b : Backend Float Nat) : Backend Float World :=
  b.within World.calls fun calls w => { w with calls }

def standard (o : Options Float) : Backend Float World := Backend.ofMethod o.method o.qpSettings

def solver (s : Session) : Backend Float World :=
  match s.backend with
  | .fromOptions => standard s.options
  | .failing budget status => counted (Backend.failing Backend.denseActiveSet budget status)
  | .scripted needsDefinite lines => counted (Backend.scripted needsDefinite lines)

def host (s : Session) : Host Float World where
  backend := s.solver
  observe := observe s.observer
  cancelled w := (w.cancelled, w)
  clock := clock

def plainHost (s : Session) : Host Float World where
  backend := standard s.options
  observe _ w := w
  cancelled w := (false, w)
  clock := clock

def keep {n m : Nat} (s : Session) (r : Solution Float n m × World) : Reply × Session :=
  (.solution ⟨n, m, r.1⟩, { s with world := r.2, last := some ⟨n, m, r.1⟩ })

def restart (s : Session) (x0 y0 : Option (Array Float)) : Reply × Session :=
  match s.problem.withStart x0 y0 with
  | .ok problem => (.done, { s with problem })
  | .error f => (.fault f, s)

/-- Carries out one command. A command that fails changes nothing. -/
def step (s : Session) : Command → Reply × Session
  | .run => s.keep (Run.run s.host s.options s.problem s.world)
  | .solve => s.keep (Run.run s.plainHost s.options s.problem s.world)
  | .runFrom w => s.keep (Run.runFrom s.host s.options s.problem w s.world)
  | .resume =>
    match s.last with
    | some ⟨_, _, sol⟩ => s.keep (Run.runFrom s.host s.options s.problem sol.warmStart s.world)
    | none => (.noSolution, s)
  | .rewarm =>
    match s.last with
    | some ⟨_, _, sol⟩ => s.restart (some sol.x.toArray) (some sol.y.toArray)
    | none => (.noSolution, s)
  | .setStart x0 y0 => s.restart x0 y0
  | .inner ρ x y =>
    match Run.innerFrom s.host s.options s.problem ρ x y s.world with
    | .ok (r, world) => (.inner s.problem r, { s with world })
    | .error f => (.fault f, s)
  | .cancel => (.cancelled, { s with world := { s.world with cancelled := true } })
  | .records => (.records s.world.records, s)
  | .info => (.info s.solver.name s.world.cancelled, s)

end Session

end ComplementarityQP
