import ComplementarityQP.Proofs.Multipliers
import ComplementarityQP.Proofs.Penalties

/-! The penalty that a run ends with. Main statement: it lies between the initial and the largest
one, except after a start that is a solution already, which goes back with the penalty that came
with it, whatever that is. -/
namespace ComplementarityQP

variable {K σ : Type} [Field K] [LinearOrder K] {host : Host K σ} {o : Options K} {p : Problem K}

theorem Run.close_trace (hkeep : o.storeSteps = true) (e : Ending p) (kind : Stationarity)
    (stationarity : K) (pr : Progress K σ) :
    ∃ last, (close host o e kind stationarity pr).1.stats.trace = pr.trace ++ [last] ∧
      last.phase = .terminated ∧
      last.penalty = (close host o e kind stationarity pr).1.stats.finalPenalty := by
  refine ⟨outerRecord .terminated e.point e.penalty stationarity pr, ?_, rfl, rfl⟩
  simp [close, Progress.emit, Progress.elapsed, hkeep]

variable [Special K]

def WarmStart.Unclamped (o : Options K) (p : Problem K) (w : WarmStart K) : Prop :=
  ¬w.Rejected p ∧ w.Certified o p ∧
    ∃ ρ, w.penalty = some ρ ∧ isFinite ρ = true ∧ ¬(o.initialPenalty ≤ ρ ∧ ρ ≤ o.maxPenalty)

namespace Run

variable [Root K] {w : WarmStart K} {s : σ} {r : Solution K p.vars p.duals × σ}

/-- Every way through a run closes it with a record of the penalty that is returned. -/
theorem terminated_of_course (hkeep : o.storeSteps = true) (course : Course host o p w s r) :
    ∃ before last, r.1.stats.trace = before ++ [last] ∧ last.phase = .terminated ∧
      last.penalty = r.1.stats.finalPenalty := by
  have hfinish (e : Ending p) (pr : Progress K σ) :
      ∃ before last, (finish host o e pr).1.stats.trace = before ++ [last] ∧
      last.phase = .terminated ∧
        last.penalty = (finish host o e pr).1.stats.finalPenalty := by
    unfold finish
    split
    · exact ⟨_, close_trace hkeep _ _ _ pr⟩
    · exact ⟨_, close_trace hkeep _ _ _ pr⟩
  cases course with
  | rejected => exact ⟨_, close_trace hkeep _ _ _ _⟩
  | certified => exact ⟨_, close_trace hkeep _ _ _ _⟩
  | unbuildable => exact ⟨_, close_trace hkeep _ _ _ _⟩
  | unsolved => exact ⟨_, close_trace hkeep _ _ _ _⟩
  | halted => exact hfinish _ _
  | settled => exact hfinish _ _

variable [IsStrictOrderedRing K]

theorem Visits.penalty_mem (ho : o.Valid) {sub : Subproblem p} {h : Head p σ}
    (hv : Visits host o p w s sub h) :
    o.initialPenalty ≤ h.penalty ∧ h.penalty ≤ o.maxPenalty := by
  obtain ⟨earlier, -, hsched⟩ := (hv.onSchedule ho).schedule
  exact ⟨hsched.low h.penalty (by simp), hsched.high⟩

/-- Only a start that is returned as it is brings its own penalty; all other ways keep to the
limits. -/
theorem finalPenalty_of_course (ho : o.Valid) (course : Course host o p w s r) :
    ((¬w.Rejected p ∧ w.Certified o p) ∧
      r.1.stats.finalPenalty = (w.penalty.filter isFinite).getD o.initialPenalty) ∨
    (¬(¬w.Rejected p ∧ w.Certified o p) ∧
      o.initialPenalty ≤ r.1.stats.finalPenalty ∧ r.1.stats.finalPenalty ≤ o.maxPenalty) := by
  have hinitial : o.initialPenalty ≤ o.initialPenalty ∧ o.initialPenalty ≤ o.maxPenalty :=
    ⟨le_rfl, ho.maxPenalty.1⟩
  cases course with
  | rejected start => exact .inr ⟨fun h => h.1 (rejected_of_error start), hinitial⟩
  | certified hx hy certified =>
    exact .inl ⟨⟨not_rejected_of_ok hx hy, certified_of_ok hx hy certified⟩, rfl⟩
  | unbuildable admitted build => exact .inr ⟨fun h => admitted.not_certified h.2, hinitial⟩
  | unsolved admitted build solve =>
    exact .inr ⟨fun h => admitted.not_certified h.2, firstPenalty_mem ho w⟩
  | halted visits turn =>
    rw [finish_finalPenalty]
    exact .inr ⟨fun h => visits.not_endsEarly (.inr (.inl h.2)), visits.penalty_mem ho⟩
  | settled visits turn =>
    rw [finish_finalPenalty]
    exact .inr ⟨fun h => visits.not_endsEarly (.inr (.inl h.2)), visits.penalty_mem ho⟩

variable (host p w s)

/-- The final penalty is within the limits unless the start was certified with a penalty outside of
them. It is the penalty of the closing record, and the one that the solution resumes with. -/
theorem finalPenalty_within_limits_iff (ho : o.validate = .ok ()) :
    let sol := (runFrom host o p w s).1
    (o.initialPenalty ≤ sol.stats.finalPenalty ∧ sol.stats.finalPenalty ≤ o.maxPenalty ↔
    ¬w.Unclamped o p) ∧
    (∃ before last, records host o p w s = before ++ [last] ∧ last.phase = .terminated ∧
      last.penalty = sol.stats.finalPenalty) ∧
    sol.warmStart.penalty = some sol.stats.finalPenalty := by
  have hvalid := Options.validate_eq_ok_iff.mp ho
  refine ⟨?_, ?_, rfl⟩
  · obtain ⟨hreturned, hpenalty⟩ | ⟨hother, hmem⟩ :=
      finalPenalty_of_course hvalid (runFrom_course host o p w s)
    · rw [hpenalty]
      cases hfilter : w.penalty.filter isFinite with
      | none =>
        refine iff_of_true ⟨le_rfl, hvalid.maxPenalty.1⟩ ?_
        rintro ⟨-, -, ρ, hρ, hfinite, -⟩
        simp [hρ, hfinite] at hfilter
      | some ρ =>
        obtain ⟨hρ, hfinite⟩ := Option.filter_eq_some_iff.mp hfilter
        constructor
        · rintro hmem ⟨-, -, ρ', hρ', -, hout⟩
          cases hρ.symm.trans hρ'
          exact hout hmem
        · intro hclamped
          by_contra hout
          exact hclamped ⟨hreturned.1, hreturned.2, ρ, hρ, hfinite, hout⟩
    · exact iff_of_true hmem fun h => hother ⟨h.1, h.2.1⟩
  · -- The records are those of the same run with the option to keep them.
    have hsame := untraced_recording host o p w s
    have hpenalty : (runFrom host { o with storeSteps := true } p w s).1.stats.finalPenalty =
        (runFrom host o p w s).1.stats.finalPenalty :=
          congrArg (fun sol => sol.stats.finalPenalty) hsame
    rw [← hpenalty]
    exact terminated_of_course rfl (runFrom_course host { o with storeSteps := true } p w s)

/-- A penalty above the largest one is moved to it where the run has to look for a solution. -/
theorem finalPenalty_within_limits_iff_warmUp :
    Options.default.validate (K := ℚ) = .ok () ∧
    let w : WarmStart ℚ := ⟨none, none, some 1000000000000⟩
    let sol := (runFrom (.answering [some .uncoupled]) Options.default Problem.warmUp w 0).1
    sol.status = .maxPenalty ∧ Options.default.initialPenalty ≤ sol.stats.finalPenalty ∧
      sol.stats.finalPenalty ≤ Options.default.maxPenalty := by
  have ho := Options.validate_eq_ok_iff.mpr (Options.valid_default (K := ℚ) fun _ => rfl)
  have hfresh : ¬WarmStart.Unclamped Options.default Problem.warmUp
      ⟨none, none, some 1000000000000⟩ := by
    rintro ⟨-, ⟨x, y, hx, -⟩, -⟩
    cases hx
  exact ⟨ho, by decide +kernel, (finalPenalty_within_limits_iff (.answering [some .uncoupled])
    Problem.warmUp ⟨none, none, some 1000000000000⟩ 0 ho).1.mpr hfresh⟩

/-- A solution of the warm-up problem comes back with a penalty ten thousand times the largest
one. -/
theorem finalPenalty_exceeds_maxPenalty :
    let w : WarmStart ℚ := ⟨some #[1, 0], some #[0, -2], some 1000000000000⟩
    let sol := (runFrom (.answering []) Options.default Problem.warmUp w 0).1
    Options.default.validate (K := ℚ) = .ok () ∧ sol.status = .success ∧
      Options.default.maxPenalty < sol.stats.finalPenalty ∧
      sol.warmStart.penalty = some 1000000000000 := by
  intro w sol
  have ho := Options.validate_eq_ok_iff.mpr (Options.valid_default (K := ℚ) fun _ => rfl)
  have hrun : sol.status = .success ∧ Options.default.maxPenalty < sol.stats.finalPenalty ∧
      sol.warmStart.penalty = some 1000000000000 := by decide +kernel
  exact ⟨ho, hrun⟩

end Run

end ComplementarityQP
