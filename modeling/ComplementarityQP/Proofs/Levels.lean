import ComplementarityQP.Proofs.Iteration
import ComplementarityQP.Run.Outer

/-! A run as a machine: how it begins, what happens at the head of its outer loop, and the head
where it ends. -/
namespace ComplementarityQP.Run

variable {K σ : Type} {p : Problem K}

/-- The head of the outer loop: how many levels may still be begun, and from where. -/
structure Head (p : Problem K) (σ : Type) where
  left : Nat
  penalty : K
  point : Iterate p
  progress : Progress K σ

inductive Turn (p : Problem K) (σ : Type) where
  /-- A check ends the loop before the level is begun. -/
  | halted (status : RunStatus) (pr : Progress K σ)
  /-- The level is run, and its result ends the loop. -/
  | settled (r : InnerResult p) (status : RunStatus) (pr : Progress K σ)
  /-- The level is run, and the loop goes on at a larger penalty. -/
  | raised (next : Head p σ)

section Verdict
variable [LE K] [DecidableLE K]

/-- What an end of the run by the result of a level rests on. -/
def Grounds (o : Options K) (ρ : K) (r : InnerResult p) : RunStatus → Prop
  | .success => r.status = .stationary ∧ r.complementarity ≤ o.complementarityTol
  | .maxPenalty => r.status = .stationary ∧ ¬r.complementarity ≤ o.complementarityTol ∧
    o.maxPenalty ≤ ρ
  | .maxIterations => r.status = .iterationLimit ∧ o.maxPenalty ≤ ρ
  | .qpFailed => ∃ st, r.status = .failed st
  | .aborted => r.status = .aborted
  | .initialFailed | .invalid => False

theorem verdict_grounds {o : Options K} {ρ : K} {r : InnerResult p} {status : RunStatus}
    (h : verdict o ρ r = some status) : Grounds o ρ r status := by
  unfold verdict at h
  split at h
  · cases h
    exact ⟨_, ‹_›⟩
  · cases h
    assumption
  · split at h
    · cases h
      exact ⟨‹_›, ‹_›⟩
    · split at h
      · cases h
        exact ⟨‹_›, ‹_›, ‹_›⟩
      · cases h
  · split at h
    · cases h
      exact ⟨‹_›, ‹_›⟩
    · cases h
  · cases h

/-- The loop goes on only below the largest penalty, or when a larger one was asked for. -/
theorem verdict_none {o : Options K} {ρ : K} {r : InnerResult p} (h : verdict o ρ r = none) :
    r.status = .penaltyIncrease ∨ ¬o.maxPenalty ≤ ρ := by
  unfold verdict at h
  split at h
  · cases h
  · cases h
  · split at h
    · cases h
    · split at h
      · cases h
      · exact .inr ‹_›
  · split at h
    · cases h
    · exact .inr ‹_›
  · exact .inl ‹_›

end Verdict

variable [Zero K] [One K] [Add K] [Sub K] [Neg K] [Mul K] [Div K] [LT K] [LE K] [DecidableLT K]
  [DecidableLE K] [OfScientific K] [Special K] [BEq K]

section Turn
variable (host : Host K σ) (o : Options K) (sub : Subproblem p)

def Head.after (h : Head p σ) (left : Nat) (r : InnerResult p) (pr : Progress K σ) : Head p σ :=
  let ρ := raise o h.penalty
  ⟨left, ρ, r.point, report host o .penaltyUpdate r.point ρ
    { pr with history := pr.history ++ [ρ] }⟩

def Head.turn (h : Head p σ) : Turn p σ :=
  match h.progress.shouldAbort host o with
  | (true, pr) => .halted .aborted pr
  | (false, pr) =>
    match h.left with
    | 0 => .halted .maxIterations pr
    | left + 1 =>
      let (r, pr) := InnerLoop.run host o sub h.penalty h.point { pr with outer := pr.outer + 1 }
      match verdict o h.penalty r with
      | some status => .settled r status pr
      | none => .raised (h.after host o left r pr)

def Head.loop (h : Head p σ) : Ending p × Progress K σ :=
  Run.loop host o sub h.left h.penalty h.point h.progress

theorem loop_turn (h : Head p σ) :
    h.loop host o sub =
      match h.turn host o sub with
      | .halted status pr => (⟨h.point, h.penalty, sub.shift, status⟩, pr)
      | .settled r status pr => (⟨r.point, h.penalty, sub.shift, status⟩, pr)
      | .raised next => next.loop host o sub := by
  obtain ⟨left, ρ, it, pr⟩ := h
  unfold Head.loop Head.turn
  rw [loop]
  obtain ⟨_ | _, pr₁⟩ := pr.shouldAbort host o
  · cases left with
    | zero => rfl
    | succ left =>
      dsimp only
      cases InnerLoop.run host o sub ρ it { pr₁ with outer := pr₁.outer + 1 } with
      | mk r pr₂ =>
        dsimp only
        cases verdict o ρ r with
        | none => rfl
        | some status => rfl
  · rfl

inductive Cause (h : Head p σ) : Turn p σ → Prop
  | aborted {pr} (check : h.progress.shouldAbort host o = (true, pr)) :
      Cause h (.halted .aborted pr)
  | limit {pr} (check : h.progress.shouldAbort host o = (false, pr)) (left : h.left = 0) :
      Cause h (.halted .maxIterations pr)
  | settled {n pr₁ r pr status} (check : h.progress.shouldAbort host o = (false, pr₁))
      (left : h.left = n + 1)
      (level : InnerLoop.run host o sub h.penalty h.point { pr₁ with outer := pr₁.outer + 1 } =
        (r, pr))
      (verdict : verdict o h.penalty r = some status) : Cause h (.settled r status pr)
  | raised {n pr₁ r pr} (check : h.progress.shouldAbort host o = (false, pr₁))
      (left : h.left = n + 1)
      (level : InnerLoop.run host o sub h.penalty h.point { pr₁ with outer := pr₁.outer + 1 } =
        (r, pr))
      (verdict : verdict o h.penalty r = none) : Cause h (.raised (h.after host o n r pr))

end Turn

variable {host : Host K σ} {o : Options K} {sub : Subproblem p}

theorem turn_cause {h : Head p σ} {t : Turn p σ} (ht : h.turn host o sub = t) :
    Cause host o sub h t := by
  subst ht
  unfold Head.turn
  rcases check : h.progress.shouldAbort host o with ⟨_ | _, pr₁⟩
  · cases left : h.left with
    | zero => exact .limit check left
    | succ n =>
      dsimp only
      cases level : InnerLoop.run host o sub h.penalty h.point
        { pr₁ with outer := pr₁.outer + 1 } with
      | mk r pr =>
        dsimp only
        cases verdict : verdict o h.penalty r with
        | none => exact .raised check left level verdict
        | some status => exact .settled check left level verdict
  · exact .aborted check

/-- A level that is run counts itself and its iterations, and nothing else. -/
theorem quiet_of_level {pr pr₁ pr₂ : Progress K σ} {ρ : K} {it : Iterate p} {r : InnerResult p}
    {b : Bool} (check : pr.shouldAbort host o = (b, pr₁))
    (level : InnerLoop.run host o sub ρ it { pr₁ with outer := pr₁.outer + 1 } = (r, pr₂)) :
    Progress.Quiet { pr with outer := pr.outer + 1, total := pr.total + r.iterations } pr₂ := by
  have hcheck := Progress.quiet_of_shouldAbort check
  have hlevel := InnerLoop.run_quiet level
  exact ⟨hlevel.outer.trans (congrArg (· + 1) hcheck.outer),
    hlevel.total.trans (congrArg (· + r.iterations) hcheck.total),
    hlevel.history.trans hcheck.history, hlevel.started.trans hcheck.started⟩

theorem quiet_of_halted {h : Head p σ} {status : RunStatus} {pr : Progress K σ}
    (turn : h.turn host o sub = .halted status pr) : Progress.Quiet h.progress pr := by
  cases turn_cause turn with
  | aborted check => exact Progress.quiet_of_shouldAbort check
  | limit check _ => exact Progress.quiet_of_shouldAbort check

section Reaches
variable (host o sub)

inductive Reaches : Head p σ → Head p σ → Prop
  | here {h} : Reaches h h
  | go {h h₁ h₂} (first : h.turn host o sub = .raised h₁) (rest : Reaches h₁ h₂) : Reaches h h₂

variable {host o sub}

theorem Reaches.loop_eq {h h' : Head p σ} (hr : Reaches host o sub h h') :
    h.loop host o sub = h'.loop host o sub := by
  induction hr with
  | here => rfl
  | go first _ ih => rw [loop_turn, first, ← ih]

theorem Reaches.invariant {I : Head p σ → Prop}
    (step : ∀ {h h'}, I h → h.turn host o sub = .raised h' → I h') {h h' : Head p σ}
    (hr : Reaches host o sub h h') (hh : I h) : I h' := by
  induction hr with
  | here => exact hh
  | go first _ ih => exact ih (step hh first)

/-- The loop comes to a head where it ends. -/
theorem exists_last (h : Head p σ) :
    ∃ h', Reaches host o sub h h' ∧ ∀ next, h'.turn host o sub ≠ .raised next := by
  -- By induction on the levels that are left: raising the penalty uses one up.
  obtain ⟨n, hn⟩ : ∃ n, h.left = n := ⟨_, rfl⟩
  induction n generalizing h with
  | zero =>
    refine ⟨h, .here, fun next hnext => ?_⟩
    cases turn_cause hnext with
    | raised check left => omega
  | succ n ih =>
    cases hturn : h.turn host o sub with
    | halted status pr => exact ⟨h, .here, by simp [hturn]⟩
    | settled r status pr => exact ⟨h, .here, by simp [hturn]⟩
    | raised next =>
      have hleft : next.left = n := by
        cases turn_cause hturn with
        | raised check left => exact Nat.succ.inj (left.symm.trans hn)
      obtain ⟨h', hr, hlast⟩ := ih next hleft
      exact ⟨h', .go hturn hr, hlast⟩

end Reaches

end ComplementarityQP.Run
