import ComplementarityQP.Proofs.Journal

/-! The surroundings of a run at any time, replayed from its journal. -/
namespace ComplementarityQP

variable {K σ : Type}

namespace Host

def absorb (host : Host K σ) (s : σ) : Event K → σ
  | .called qp hint _ => (host.backend.solve qp hint s).2
  | .polled _ => (host.cancelled s).2
  | .timed _ => (host.clock s).2
  | .shown r => host.observe r s

def replay (host : Host K σ) (s : σ) (events : List (Event K)) : σ := events.foldl host.absorb s

theorem replay_append (host : Host K σ) (s : σ) (before after : List (Event K)) :
    host.replay s (before ++ after) = host.replay (host.replay s before) after := List.foldl_append

structure Keeps (host : Host K σ) (I : σ → Prop) : Prop where
  solve {n m : Nat} (qp : Qp K n m) (hint : Option (Hint K)) {s : σ} : I s →
    I (host.backend.solve qp hint s).2
  observe (r : Record K) {s : σ} : I s → I (host.observe r s)
  cancelled {s : σ} : I s → I (host.cancelled s).2
  clock {s : σ} : I s → I (host.clock s).2

/-- The journal tells how the surroundings came about. -/
theorem journaled_keeps_replay (host : Host K σ) (s : σ) :
    host.journaled.Keeps fun t => t.1 = host.replay s t.2 where
  solve _ _ _ h := by
    simp only [journaled, replay_append, ← h]
    rfl
  observe _ _ h := by
    simp only [journaled, replay_append, ← h]
    rfl
  cancelled h := by
    simp only [journaled, replay_append, ← h]
    rfl
  clock h := by
    simp only [journaled, replay_append, ← h]
    rfl

end Host

section Dealings
variable {host : Host K σ} {o : Options K} {I : σ → Prop} (hkeeps : host.Keeps I)
  {pr pr' : Progress K σ}
include hkeeps

namespace Host.Keeps

theorem emit (h : I pr.state) (r : Record K) : I (pr.emit host o r).state := by
  unfold Progress.emit
  dsimp only
  split
  · exact hkeeps.observe r h
  · exact h

theorem shouldAbort [Sub K] [LT K] [DecidableLT K] (h : I pr.state) {b : Bool}
    (check : pr.shouldAbort host o = (b, pr')) : I pr'.state := by
  have hpolled := hkeeps.cancelled h
  unfold Progress.shouldAbort at check
  rcases hc : host.cancelled pr.state with ⟨_ | _, s⟩
  · rw [hc] at check hpolled
    dsimp only at check
    split at check
    · cases check
      exact hpolled
    · cases check
      exact hkeeps.clock hpolled
  · rw [hc] at check hpolled
    cases check
    exact hpolled

theorem solveAt [Zero K] [One K] [Add K] [Sub K] [Neg K] [Mul K] [Div K] [LT K] [LE K]
    [DecidableLT K] [DecidableLE K] [OfScientific K] [Special K] [BEq K] {p : Problem K}
    {sub : Subproblem p} {qp : Qp K p.vars p.duals} {x : Vec K p.vars} {y : Vec K p.duals}
    {answer : Except (Option QpStatus) (Answer K p.vars p.duals)} (h : I pr.state)
    (solve : pr.solveAt host sub qp x y = (answer, pr')) : I pr'.state := by
  rw [Progress.state_of_solveAt solve]
  exact hkeeps.solve qp _ h

end Host.Keeps

end Dealings

namespace Progress
variable [Zero K] [One K] [Add K] [Sub K] [Neg K] [Mul K] [Div K] [LT K] [LE K] [DecidableLT K]
  [DecidableLE K] [OfScientific K] [Special K] [BEq K] {p : Problem K} {host : Host K σ}
  {sub : Subproblem p} {pr pr' : Progress K (σ × List (Event K))} {qp : Qp K p.vars p.duals}
  {x : Vec K p.vars} {y : Vec K p.duals}

theorem events_of_call {answer : Except (Option QpStatus) (Answer K p.vars p.duals)}
    (solve : pr.solveAt host.journaled sub qp x y = (answer, pr')) :
    pr'.events = pr.events ++ [.called qp (some ⟨x.toArray, y.toArray⟩)
      (host.backend.solve qp (some ⟨x.toArray, y.toArray⟩) pr.state.1).1] :=
        congrArg Prod.snd (state_of_solveAt solve)

theorem events_of_solved {a : Answer K p.vars p.duals}
    (solve : pr.solveAt host.journaled sub qp x y = (.ok a, pr')) :
    pr'.events = pr.events ++ [.called qp (some ⟨x.toArray, y.toArray⟩) (.ok a)] := by
  have hreply : (host.backend.solve qp (some ⟨x.toArray, y.toArray⟩) pr.state.1).1 = .ok a :=
    (solveAt_eq_ok_iff.mp (congrArg Prod.fst solve)).1
  rw [events_of_call solve, hreply]

end Progress

end ComplementarityQP
