import ComplementarityQP.Run.Progress

/-! What the dealings of a run with its surroundings leave alone. -/
namespace ComplementarityQP.Progress

variable {K σ : Type}

/-- The iterations counted, the penalties used and the time of the start are the same. -/
structure Quiet (pr pr' : Progress K σ) : Prop where
  outer : pr'.outer = pr.outer
  total : pr'.total = pr.total
  history : pr'.history = pr.history
  started : pr'.started = pr.started

namespace Quiet

theorem refl (pr : Progress K σ) : Quiet pr pr := ⟨rfl, rfl, rfl, rfl⟩

theorem trans {pr₁ pr₂ pr₃ : Progress K σ} (h : Quiet pr₁ pr₂) (h' : Quiet pr₂ pr₃) :
    Quiet pr₁ pr₃ :=
  ⟨h'.outer.trans h.outer, h'.total.trans h.total, h'.history.trans h.history,
    h'.started.trans h.started⟩

end Quiet

variable {host : Host K σ} {o : Options K} {pr pr' : Progress K σ}

/-- A check whether to stop changes nothing but the surroundings. -/
theorem changes_of_shouldAbort [Sub K] [LT K] [DecidableLT K] {b : Bool}
    (h : pr.shouldAbort host o = (b, pr')) :
    ∃ s, pr' = { pr with state := s } := by
  unfold shouldAbort at h
  split at h
  · cases h
    exact ⟨_, rfl⟩
  · split at h
    · cases h
      exact ⟨_, rfl⟩
    · cases h
      exact ⟨_, rfl⟩

theorem quiet_of_shouldAbort [Sub K] [LT K] [DecidableLT K] {b : Bool}
    (h : pr.shouldAbort host o = (b, pr')) :
    Quiet pr pr' := by
  obtain ⟨s, rfl⟩ := changes_of_shouldAbort h
  exact ⟨rfl, rfl, rfl, rfl⟩

theorem changes_of_solveQp {n m : Nat} {qp : Qp K n m} {hint : Hint K}
    {answer : Except (Option QpStatus) (Answer K n m)}
    (h : pr.solveQp host qp hint = (answer, pr')) :
    ∃ k last s, pr' = { pr with qpIterations := k, lastQp := last, state := s } := by
  unfold solveQp at h
  split at h
  · cases h
    exact ⟨_, _, _, rfl⟩
  · cases h
    exact ⟨_, _, _, rfl⟩

theorem state_of_solveQp {n m : Nat} {qp : Qp K n m} {hint : Hint K}
    {answer : Except (Option QpStatus) (Answer K n m)}
    (h : pr.solveQp host qp hint = (answer, pr')) :
    pr'.state = (host.backend.solve qp (some hint) pr.state).2 := by
  unfold solveQp at h
  split at h
  · rename_i hreply
    cases h
    rw [hreply]
  · rename_i hreply
    cases h
    rw [hreply]

section SolveAt
variable [Zero K] [One K] [Add K] [Sub K] [Neg K] [Mul K] [Div K] [LT K] [LE K] [DecidableLT K]
  [DecidableLE K] [OfScientific K] [Special K] [BEq K] {p : Problem K} {sub : Subproblem p}
  {qp : Qp K p.vars p.duals} {x : Vec K p.vars} {y : Vec K p.duals}
  {answer : Except (Option QpStatus) (Answer K p.vars p.duals)}

/-- A subproblem changes nothing but the surroundings and what is known of the solver. -/
theorem changes_of_solveAt (h : pr.solveAt host sub qp x y = (answer, pr')) :
    ∃ k last s, pr' = { pr with qpIterations := k, lastQp := last, state := s } := by
  unfold solveAt at h
  rcases hs : pr.solveQp host qp ⟨x.toArray, y.toArray⟩ with ⟨_ | a, pr₁⟩
  · rw [hs] at h
    cases h
    exact changes_of_solveQp hs
  · obtain ⟨k, last, s, rfl⟩ := changes_of_solveQp hs
    rw [hs] at h
    dsimp only at h
    split at h
    · cases h
      exact ⟨_, _, _, rfl⟩
    · cases h
      exact ⟨_, _, _, rfl⟩

/-- The surroundings see one call. -/
theorem state_of_solveAt (h : pr.solveAt host sub qp x y = (answer, pr')) :
    pr'.state = (host.backend.solve qp (some ⟨x.toArray, y.toArray⟩) pr.state).2 := by
  unfold solveAt at h
  rcases hs : pr.solveQp host qp ⟨x.toArray, y.toArray⟩ with ⟨_ | a, pr₁⟩
  · rw [hs] at h
    cases h
    exact state_of_solveQp hs
  · have hstate := state_of_solveQp hs
    rw [hs] at h
    dsimp only at h
    split at h
    · cases h
      exact hstate
    · cases h
      exact hstate

theorem quiet_of_solveAt (h : pr.solveAt host sub qp x y = (answer, pr')) : Quiet pr pr' := by
  obtain ⟨k, last, s, rfl⟩ := changes_of_solveAt h
  exact ⟨rfl, rfl, rfl, rfl⟩

end SolveAt

/-- A subproblem is solved by an answer of the solver that is a solution and does not lie along a
ray. -/
theorem solveAt_eq_ok_iff [Zero K] [One K] [Add K] [Sub K] [Neg K] [Mul K] [Div K] [LT K] [LE K]
    [DecidableLT K] [DecidableLE K] [OfScientific K] [Special K] [BEq K] {p : Problem K}
    {sub : Subproblem p} {qp : Qp K p.vars p.duals} {x : Vec K p.vars} {y : Vec K p.duals}
    {a : Answer K p.vars p.duals} :
    (pr.solveAt host sub qp x y).1 = .ok a ↔
      (host.backend.solve qp (some ⟨x.toArray, y.toArray⟩) pr.state).1 = .ok a ∧
        a.status = .solved ∧
        sub.isRay qp x (a.x - x) = false := by
  unfold solveAt solveQp
  rcases host.backend.solve qp (some ⟨x.toArray, y.toArray⟩) pr.state with ⟨_ | b, s⟩
  · simp
  · by_cases hsolved : b.status = .solved
    · cases hray : sub.isRay qp x (b.x - x) with
      | true =>
        simp only [QpStatus.isSolved, hsolved, hray, decide_true, ↓reduceIte, reduceCtorEq,
          false_iff]
        rintro ⟨⟨⟩, -, hno⟩
        cases hray.symm.trans hno
      | false =>
        simp only [QpStatus.isSolved, hsolved, hray, decide_true, Bool.false_eq_true, ↓reduceIte]
        constructor
        · rintro ⟨⟩
          exact ⟨rfl, hsolved, hray⟩
        · rintro ⟨⟨⟩, -, -⟩
          rfl
    · simp only [QpStatus.isSolved, hsolved, decide_false, Bool.false_eq_true, ↓reduceIte,
        reduceCtorEq, false_iff]
      rintro ⟨⟨⟩, hyes, -⟩
      exact hsolved hyes

end ComplementarityQP.Progress
