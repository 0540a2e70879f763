import ComplementarityQP.Qp.Dense
import ComplementarityQP.Qp.Sparse
import ComplementarityQP.Record

/-! Solvers of quadratic programs as a run sees them, and the rest of a run's surroundings. -/
namespace ComplementarityQP

variable {K σ τ : Type}

/-- A solver with a state of its own, of which nothing else is assumed. -/
structure Backend (K σ : Type) where
  name : String
  /-- Must the Hessian be positive definite? -/
  needsDefinite : Bool
  solve : {n m : Nat} → Qp K n m → Option (Hint K) → σ → Except (Fault K) (Answer K n m) × σ

namespace Backend

def within (get : τ → σ) (put : σ → τ → τ) (b : Backend K σ) : Backend K τ where
  name := b.name
  needsDefinite := b.needsDefinite
  solve qp hint t :=
    let (a, s) := b.solve qp hint (get t)
    (a, put s t)

def denseActiveSet : Backend Float σ where
  name := "dense-active-set"
  needsDefinite := true
  solve qp hint s := (qp.dense .standard hint, s)

def interiorPoint (settings : QpSettings Float) : Backend Float σ where
  name := "clarabel"
  needsDefinite := false
  solve qp _ s := (qp.sparse (InteriorPoint.solve settings), s)

def interiorPointDefaults : QpSettings Float := ⟨200, 1e-10, false⟩

def ofMethod (method : QpMethod) (settings : QpSettings Float) : Backend Float σ :=
  match method with
  | .denseActiveSet => denseActiveSet
  | .sparseInteriorPoint => interiorPoint settings

/-- Solves as `b` does for the first `budget` calls. After that it answers with `status` whatever
came out, or rejects the program if there is none. The state counts the calls. -/
def failing (b : Backend K Unit) (budget : Nat) (status : Option QpStatus) : Backend K Nat where
  name := "failing"
  needsDefinite := b.needsDefinite
  solve qp hint calls :=
    let answer := (b.solve qp hint ()).1
    let calls' := calls + 1
    if calls' ≤ budget then (answer, calls')
    else
      match status with
      | some s => (answer.map fun a => { a with status := s }, calls')
      | none => (.error (.backend "budget used up"), calls')

structure Line (K : Type) where
  x : Array K
  y : Array K
  status : QpStatus
  iterations : Nat

def Line.answer [Zero K] (l : Line K) (n m : Nat) : Except (Fault K) (Answer K n m) :=
  match Vec.ofArray? n l.x, Vec.ofArray? m l.y with
  | some x, some y => .ok ⟨x, y, l.status, 0, l.iterations⟩
  | _, _ => .error (.backend "answer does not fit")

/-- Answers with the given lines in order, the last one again and again, whatever it is asked. An
empty line rejects the program. The state counts the calls. -/
def scripted [Zero K] (needsDefinite : Bool) (lines : List (Option (Line K))) : Backend K Nat where
  name := "scripted"
  needsDefinite
  solve {n m} _ _ calls :=
    match lines[min calls (lines.length - 1)]? with
    | some (some l) => (l.answer n m, calls + 1)
    | _ => (.error (.backend "no answer"), calls + 1)

end Backend

/-- What a run is surrounded by: a solver, an observer of its records, a request to stop, and a
clock. All of them share one state. Asking for the request passes the state on too, as it may arrive
between any two questions. -/
structure Host (K σ : Type) where
  backend : Backend K σ
  observe : Record K → σ → σ
  cancelled : σ → Bool × σ
  clock : σ → K × σ

end ComplementarityQP
