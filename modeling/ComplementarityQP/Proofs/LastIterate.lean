import ComplementarityQP.Proofs.Exact
import ComplementarityQP.Proofs.Iteration

/-! The iterate that an inner loop returns. Main statement: it is the one after the last step taken,
with its residuals, except that a subproblem that fails leaves the nudge in the point and not in the
residuals. -/
namespace ComplementarityQP.InnerLoop

variable {K σ : Type} {p : Problem K} [Zero K] [One K] [Add K] [Sub K] [Neg K] [Mul K] [LT K] [LE K]
  [DecidableLT K] [DecidableLE K] [OfScientific K]

def Measured (ρ : K) (l : InnerLoop p) : Prop :=
  l.stationarity = p.stationarity ρ l.point ∧ l.complementarity = p.complementarity l.point.x

/-- What a loop gives back when `last` is the iterate after its last step and `total` subproblems
have been solved. -/
structure Returned (o : Options K) (ρ : K) (total : Nat) (last : Iterate p) (r : InnerResult p) :
    Prop where
  point : r.point = match r.status with
    | .failed _ => ⟨p.nudged o ρ total last.x, last.y⟩
    | _ => last
  stationarity : r.stationarity = p.stationarity ρ last
  complementarity : r.complementarity = p.complementarity last.x

variable {o : Options K} {ρ : K}

theorem Measured.returned {l : InnerLoop p} (hl : l.Measured ρ) (st : InnerStatus)
    (hst : ∀ s, st ≠ .failed s) (total : Nat) : Returned o ρ total l.point (l.result st) := by
  refine ⟨?_, hl.1, hl.2⟩
  cases st with
  | failed s => exact absurd rfl (hst s)
  | _ => rfl

variable [Div K] [Special K] [BEq K] (host : Host K σ) (o : Options K) (sub : Subproblem p) (ρ : K)

inductive Takes : Iterate p → Iterate p → Prop
  | mk {l : InnerLoop p} {pr pr' : Progress K σ} {a : Answer K p.vars p.duals}
      (solve : pr.solveAt host sub (sub.penalized (l.moved o ρ pr.total).point.x ρ)
        (l.moved o ρ pr.total).point.x l.point.y = (.ok a, pr')) :
      Takes l.point (l.landing o ρ pr.total a)

/-- The iterates of a loop: where it stands, and the one after each step that it takes. -/
def iterates : Nat → InnerLoop p → Progress K σ → List (Iterate p)
  | left, l, pr =>
    match l.iterate host o sub ρ pr with
    | (some status, l', _) => if status.completes then [l.point, l'.point] else [l.point]
    | (none, l', pr') =>
      match left with
      | 0 => [l.point, l'.point]
      | left + 1 => l.point :: iterates left l' pr'

theorem trail_eq_map (left : Nat) (l : InnerLoop p) (pr : Progress K σ) :
    trail host o sub ρ left l pr = (iterates host o sub ρ left l pr).map Iterate.x := by
  fun_induction iterates host o sub ρ left l pr with
  | case1 left l pr st l' pr' h hst => simp [trail, h, hst]
  | case2 left l pr st l' pr' h hst => simp [trail, h, hst]
  | case3 l pr l' pr' h => simp [trail, h]
  | case4 l pr l' pr' h left ih => simp [trail, h, ih]

theorem iterates_head (left : Nat) (l : InnerLoop p) (pr : Progress K σ) :
    (iterates host o sub ρ left l pr).head? = some l.point := by
  unfold iterates
  split
  · split <;> rfl
  · split <;> rfl

variable {host o sub ρ} {l l' : InnerLoop p} {pr pr' : Progress K σ}

theorem takes_of_iterate {st : Option InnerStatus} (h : l.iterate host o sub ρ pr = (st, l', pr'))
    (hst : st.all InnerStatus.completes = true) : Takes host o sub ρ l.point l'.point := by
  cases iterate_outcome h with
  | aborted check => cases hst
  | failed check solve => cases hst
  | stepped check solve report exit =>
    obtain ⟨window, rfl⟩ := exit_loop exit
    exact .mk solve

theorem measured_of_iterate {st : Option InnerStatus}
    (h : l.iterate host o sub ρ pr = (st, l', pr')) (hst : st.all InnerStatus.completes = true) :
    l'.Measured ρ := by
  cases iterate_outcome h with
  | aborted check => cases hst
  | failed check solve => cases hst
  | stepped check solve report exit =>
    obtain ⟨window, rfl⟩ := exit_loop exit
    exact ⟨rfl, rfl⟩

theorem total_of_none (h : l.iterate host o sub ρ pr = (none, l', pr')) :
    pr'.total = pr.total + 1 := by
  cases iterate_outcome h with
  | stepped check solve report exit =>
    rw [report]
    exact congrArg (· + 1)
      ((Progress.quiet_of_shouldAbort check).trans (Progress.quiet_of_solveAt solve)).total

/-- An iteration that does not complete leaves the loop as it was, but for the nudge where the
subproblem fails. -/
theorem returned_of_incomplete (hl : l.Measured ρ) {st : InnerStatus} (hst : st.completes = false)
    (h : l.iterate host o sub ρ pr = (some st, l', pr')) :
    l'.iterations = l.iterations ∧ Returned o ρ pr.total l.point (l'.result st) := by
  cases iterate_outcome h with
  | aborted check => exact ⟨rfl, hl.returned .aborted nofun _⟩
  | @failed pr₁ _ s check solve =>
    refine ⟨rfl, ?_, hl.1, hl.2⟩
    rw [← (Progress.quiet_of_shouldAbort check).total]
    rfl
  | stepped check solve report exit => cases hst.symm.trans (exit_completes exit)

variable (host o sub ρ)

theorem isChain_iterates (left : Nat) (l : InnerLoop p) (pr : Progress K σ) :
    (iterates host o sub ρ left l pr).IsChain (Takes host o sub ρ) := by
  fun_induction iterates host o sub ρ left l pr with
  | case1 left l pr st l' pr' h hst => exact List.isChain_pair.mpr (takes_of_iterate h hst)
  | case2 left l pr st l' pr' h hst => exact .singleton _
  | case3 l pr l' pr' h => exact List.isChain_pair.mpr (takes_of_iterate h rfl)
  | case4 l pr l' pr' h left ih =>
    refine List.isChain_cons.mpr ⟨?_, ih⟩
    intro it hit
    rw [iterates_head] at hit
    cases hit
    exact takes_of_iterate h rfl

theorem loop_returned (left : Nat) (l : InnerLoop p) (pr : Progress K σ) (hl : l.Measured ρ) :
    ∃ before last, iterates host o sub ρ left l pr = before ++ [last] ∧
      Returned o ρ (pr.total + (loop host o sub ρ left l pr).1.iterations - l.iterations) last
        (loop host o sub ρ left l pr).1 := by
  fun_induction loop host o sub ρ left l pr with
  | case1 left l pr st l' pr' h =>
    cases hst : st.completes with
    | true =>
      refine ⟨[l.point], l'.point, by simp [iterates, h, hst], ?_⟩
      refine (measured_of_iterate h hst).returned st ?_ _
      rintro s rfl
      cases hst
    | false =>
      obtain ⟨hcount, hreturned⟩ := returned_of_incomplete hl hst h
      refine ⟨[], l.point, by simp [iterates, h, hst], ?_⟩
      change Returned o ρ (pr.total + l'.iterations - l.iterations) l.point (l'.result st)
      rw [hcount, Nat.add_sub_cancel]
      exact hreturned
  | case2 l pr l' pr' h =>
    exact ⟨[l.point], l'.point, by simp [iterates, h],
      (measured_of_iterate h rfl).returned .iterationLimit nofun _⟩
  | case3 l pr l' pr' h left ih =>
    obtain ⟨before, last, hbefore, hreturned⟩ := ih (measured_of_iterate h rfl)
    refine ⟨l.point :: before, last, by simp [iterates, h, hbefore], ?_⟩
    -- One more subproblem is solved and one more iteration is counted.
    rw [total_of_none h, iterations_of_none h, Nat.add_right_comm,
      Nat.add_sub_add_right] at hreturned
    exact hreturned

/-- A loop goes from iterate to iterate by the steps that it takes, and what it returns is the last
of them with its residuals, if and only if it does not end on a failed subproblem whose point has
been nudged. -/
theorem returns_last_iterate_iff (it : Iterate p) (pr : Progress K σ) :
    let r := (run host o sub ρ it pr).1
    let points := iterates host o sub ρ (o.maxInner - 1) (start p ρ it) pr
    points.head? = some it ∧ points.length = r.iterations + 1 ∧
      points.IsChain (Takes host o sub ρ) ∧
    ∃ last, points.getLast? = some last ∧
      (r.point = last ∧ r.stationarity = p.stationarity ρ r.point ∧
      r.complementarity = p.complementarity r.point.x ↔
        ∀ st, r.status = .failed st → p.nudged o ρ (pr.total + r.iterations) last.x = last.x) ∧
      ∀ st, r.status = .failed st →
        r.point = ⟨p.nudged o ρ (pr.total + r.iterations) last.x, last.y⟩ ∧
        r.stationarity = p.stationarity ρ last ∧ r.complementarity = p.complementarity last.x := by
  intro r points
  have hlength : points.length = r.iterations + 1 := by
    have hcount := (trail_ends host o sub ρ (o.maxInner - 1) (start p ρ it) pr).1
    rw [trail_eq_map, List.length_map] at hcount
    exact (Nat.zero_add _).symm.trans hcount
  obtain ⟨before, last, hpoints, hreturned⟩ :=
    loop_returned host o sub ρ (o.maxInner - 1) (start p ρ it) pr ⟨rfl, rfl⟩
  have hr : Returned o ρ (pr.total + r.iterations) last r := hreturned
  refine ⟨iterates_head host o sub ρ _ _ _, hlength, isChain_iterates host o sub ρ _ _ _, last,
    ?_, ?_, ?_⟩
  · exact (congrArg List.getLast? hpoints).trans List.getLast?_concat
  · constructor
    · rintro ⟨hpoint, -⟩ st hst
      have hnudged := hr.point
      rw [hst, hpoint] at hnudged
      exact (congrArg Iterate.x hnudged).symm
    · intro hstill
      have hpoint : r.point = last := by
        rw [hr.point]
        split
        · rename_i st hst
          rw [hstill st hst]
        · rfl
      rw [hpoint]
      exact ⟨rfl, hr.stationarity, hr.complementarity⟩
  · intro st hst
    refine ⟨?_, hr.stationarity, hr.complementarity⟩
    rw [hr.point, hst]

/-- A solver that rejects the first subproblem: no step is taken, but the point has left the origin,
and its residual is not the one reported. -/
theorem failed_subproblem_moves_point :
    let host := Host.answering [none]
    let origin : Iterate Problem.warmUp := ⟨Vec.zero _, Vec.zero _⟩
    let r := (run host Options.default ⟨0⟩ 1 origin (.start host 0)).1
    r.status = .failed none ∧ r.iterations = 0 ∧ r.point.x ≠ origin.x ∧
      r.stationarity ≠ Problem.warmUp.stationarity 1 r.point := by
  decide +kernel

end ComplementarityQP.InnerLoop
