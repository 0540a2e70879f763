import ComplementarityQP.Proofs.Course
import ComplementarityQP.Proofs.Exact
import ComplementarityQP.Proofs.Options

/-! The penalties of a run. Main statement: the history is empty or a rising schedule from the first
penalty, each next one grown by the factor and cut off at the largest, which is never left again. -/
namespace ComplementarityQP.Run

variable {K σ : Type} [Field K] [LinearOrder K] [IsStrictOrderedRing K] [Special K] {o : Options K}

omit [IsStrictOrderedRing K] [Special K] in
theorem raise_eq_min (o : Options K) (ρ : K) : raise o ρ = min (ρ * o.penaltyGrowth) o.maxPenalty :=
  atMost_eq_min _ _

theorem lt_raise (ho : o.Valid) {ρ : K} (hρ : 0 < ρ) (hlt : ρ < o.maxPenalty) : ρ < raise o ρ := by
  rw [raise_eq_min]
  exact lt_min (lt_mul_of_one_lt_right hρ ho.penaltyGrowth.1) hlt

omit [IsStrictOrderedRing K] in
theorem firstPenalty_eq (ho : o.Valid) (w : WarmStart K) :
    firstPenalty o w = (w.penalty.filter isFinite).elim o.initialPenalty
      fun ρ => max o.initialPenalty (min ρ o.maxPenalty) := by
  unfold firstPenalty startPenalty
  cases w.penalty.filter isFinite with
  | none => rfl
  | some ρ => exact clamp_eq_max_min ho.maxPenalty.1 ρ

omit [IsStrictOrderedRing K] in
theorem firstPenalty_mem (ho : o.Valid) (w : WarmStart K) :
    o.initialPenalty ≤ firstPenalty o w ∧ firstPenalty o w ≤ o.maxPenalty := by
  rw [firstPenalty_eq ho]
  cases w.penalty.filter isFinite with
  | none => exact ⟨le_rfl, ho.maxPenalty.1⟩
  | some ρ => exact ⟨le_max_left _ _, max_le ho.maxPenalty.1 (min_le_right _ _)⟩

structure Schedule (o : Options K) (first : K) (earlier : List K) (last : K) : Prop where
  head : (earlier ++ [last]).head? = some first
  chain : (earlier ++ [last]).IsChain fun ρ next => next = min (ρ * o.penaltyGrowth) o.maxPenalty
  sorted : (earlier ++ [last]).Pairwise (· < ·)
  low : ∀ ρ ∈ earlier ++ [last], o.initialPenalty ≤ ρ
  high : last ≤ o.maxPenalty

namespace Schedule

omit [IsStrictOrderedRing K] in
theorem single (ho : o.Valid) (w : WarmStart K) :
    Schedule o (firstPenalty o w) [] (firstPenalty o w) where
  head := rfl
  chain := .singleton _
  sorted := List.pairwise_singleton _ _
  low ρ hρ := by
    obtain rfl := List.mem_singleton.mp hρ
    exact (firstPenalty_mem ho w).1
  high := (firstPenalty_mem ho w).2

variable {first last : K} {earlier : List K}

omit [IsStrictOrderedRing K] [Special K] in
theorem lt_last (h : Schedule o first earlier last) {ρ : K} (hρ : ρ ∈ earlier) : ρ < last :=
  (List.pairwise_append.mp h.sorted).2.2 ρ hρ last (List.mem_singleton_self _)

omit [IsStrictOrderedRing K] [Special K] in
theorem le_last (h : Schedule o first earlier last) {ρ : K} (hρ : ρ ∈ earlier ++ [last]) :
    ρ ≤ last := by
  obtain hρ | hρ := List.mem_append.mp hρ
  · exact (h.lt_last hρ).le
  · exact (List.mem_singleton.mp hρ).le

theorem push (ho : o.Valid) (h : Schedule o first earlier last) (hlt : last < o.maxPenalty) :
    Schedule o first (earlier ++ [last]) (raise o last) := by
  have hlow : o.initialPenalty ≤ last := h.low last (by simp)
  have hnext : last < raise o last := lt_raise ho (ho.initialPenalty.1.trans_le hlow) hlt
  refine ⟨?_, ?_, ?_, ?_, ?_⟩
  · rw [List.head?_append, h.head]
    rfl
  · refine h.chain.append (.singleton _) ?_
    simp [raise_eq_min]
  · refine List.pairwise_append.mpr
      ⟨h.sorted, List.pairwise_singleton _ _, fun ρ hρ next hmem => ?_⟩
    obtain rfl := List.mem_singleton.mp hmem
    exact (h.le_last hρ).trans_lt hnext
  · intro ρ hρ
    obtain hρ | hρ := List.mem_append.mp hρ
    · exact h.low ρ hρ
    · obtain rfl := List.mem_singleton.mp hρ
      exact hlow.trans hnext.le
  · rw [raise_eq_min]
    exact min_le_right _ _

end Schedule

variable {host : Host K σ} {p : Problem K} {sub : Subproblem p}

/-- The head of the outer loop has come along the schedule, and one level for each penalty but the
last. -/
structure Head.OnSchedule (o : Options K) (first : K) (h : Head p σ) : Prop where
  schedule : ∃ earlier, h.progress.history = earlier ++ [h.penalty] ∧
    Schedule o first earlier h.penalty
  length : h.progress.history.length = h.progress.outer + 1
  left : h.left + h.progress.outer = o.maxOuter

omit [IsStrictOrderedRing K] in
/-- A level is left for a larger penalty only while there is one. -/
theorem lt_of_verdict_none {ρ : K} {it : Iterate p} {pr pr' : Progress K σ} {r : InnerResult p}
    (level : InnerLoop.run host o sub ρ it pr = (r, pr')) (h : verdict o ρ r = none) :
    ρ < o.maxPenalty := by
  obtain hst | hlt := verdict_none h
  · exact InnerLoop.lt_of_penaltyIncrease level hst
  · exact lt_of_not_ge hlt

theorem Head.OnSchedule.step (ho : o.Valid) {first : K} {h h' : Head p σ}
    (hs : h.OnSchedule o first) (ht : h.turn host o sub = .raised h') : h'.OnSchedule o first := by
  cases turn_cause ht with
  | @raised n pr₁ r pr check left level verdict =>
    -- There was a larger penalty to go to, so the next one is strictly larger.
    have hlt := lt_of_verdict_none level verdict
    have hlevel := quiet_of_level check level
    have hhistory : pr.history = h.progress.history := hlevel.history
    have houter : pr.outer = h.progress.outer + 1 := hlevel.outer
    obtain ⟨earlier, hearlier, hsched⟩ := hs.schedule
    refine ⟨⟨earlier ++ [h.penalty], ?_, hsched.push ho hlt⟩, ?_, ?_⟩
    · change pr.history ++ [raise o h.penalty] = _
      rw [hhistory, hearlier]
      rfl
    · change (pr.history ++ [raise o h.penalty]).length = pr.outer + 1
      rw [List.length_append, hhistory, hs.length, houter]
      rfl
    · change n + pr.outer = o.maxOuter
      have := hs.left
      omega

variable [Root K] {w : WarmStart K} {s : σ}

omit [IsStrictOrderedRing K] in
theorem Begins.onSchedule (ho : o.Valid) {h : Head p σ} (hb : Begins host o p w s sub h) :
    h.OnSchedule o (firstPenalty o w) := by
  cases hb with
  | @mk x0 y0 sub a pr admitted build solve =>
    have hsolve := Progress.quiet_of_solveAt solve
    have hhistory : pr.history = [firstPenalty o w] := hsolve.history
    have houter : pr.outer = 0 := hsolve.outer
    refine ⟨⟨[], hhistory, Schedule.single ho w⟩, ?_, ?_⟩
    · change pr.history.length = pr.outer + 1
      rw [hhistory, houter]
      rfl
    · change o.maxOuter + pr.outer = o.maxOuter
      rw [houter]
      rfl

theorem Visits.onSchedule (ho : o.Valid) {h : Head p σ} (hv : Visits host o p w s sub h) :
    h.OnSchedule o (firstPenalty o w) := by
  obtain ⟨first, hb, hr⟩ := hv
  exact hr.invariant (fun hh ht => hh.step ho ht) (hb.onSchedule ho)

section Course
variable {r : Solution K p.vars p.duals × σ}

theorem history_of_course (ho : o.Valid) (course : Course host o p w s r) :
    (EndsEarly host o p w ∧ r.1.stats.history = []) ∨
    (¬EndsEarly host o p w ∧ ∃ earlier, r.1.stats.history = earlier ++ [r.1.stats.finalPenalty] ∧
      Schedule o (firstPenalty o w) earlier r.1.stats.finalPenalty) := by
  cases course with
  | rejected start => exact .inl ⟨.inl (rejected_of_error start), rfl⟩
  | certified hx hy certified => exact .inl ⟨endsEarly_of_certified hx hy certified, rfl⟩
  | unbuildable admitted build => exact .inl ⟨.inr (.inr ⟨_, build⟩), rfl⟩
  | unsolved admitted build solve =>
    have hhistory := (Progress.quiet_of_solveAt solve).history
    exact .inr ⟨admitted.not_endsEarly build, [], hhistory, Schedule.single ho w⟩
  | halted visits turn =>
    obtain ⟨earlier, hearlier, hsched⟩ := (visits.onSchedule ho).schedule
    refine .inr ⟨visits.not_endsEarly, earlier, ?_⟩
    rw [finish_history, finish_finalPenalty]
    exact ⟨(quiet_of_halted turn).history.trans hearlier, hsched⟩
  | settled visits turn =>
    obtain ⟨earlier, hearlier, hsched⟩ := (visits.onSchedule ho).schedule
    refine .inr ⟨visits.not_endsEarly, earlier, ?_⟩
    rw [finish_history, finish_finalPenalty]
    cases turn_cause turn with
    | settled check _ level _ => exact ⟨(quiet_of_level check level).history.trans hearlier, hsched⟩

omit [IsStrictOrderedRing K] in
/-- A run that ends early has begun no level, and comes to no check of the outer loop. -/
theorem length_of_endsEarly {sol : Solution K p.vars p.duals} (hearly : EndsEarly host o p w)
    (hst : sol.status ≠ .initialFailed) (hlength : sol.stats.history.length = sol.stats.outer) :
    (sol.status = .initialFailed ∨ HaltsAtHead host o p w s →
      sol.stats.history.length = sol.stats.outer + 1) ∧
    (¬(sol.status = .initialFailed ∨ HaltsAtHead host o p w s) →
      sol.stats.history.length = sol.stats.outer) := by
  refine ⟨fun h => ?_, fun _ => hlength⟩
  have hhalts : HaltsAtHead host o p w s := h.resolve_left hst
  exact absurd hearly hhalts.not_endsEarly

/-- The history has an entry for each level, and one more for a level that was not begun. -/
theorem length_of_course (ho : o.Valid) (course : Course host o p w s r) :
    (r.1.status = .initialFailed ∨ HaltsAtHead host o p w s →
      r.1.stats.history.length = r.1.stats.outer + 1) ∧
    (¬(r.1.status = .initialFailed ∨ HaltsAtHead host o p w s) →
      r.1.stats.history.length = r.1.stats.outer) := by
  cases course with
  | rejected start => exact length_of_endsEarly (.inl (rejected_of_error start)) nofun rfl
  | certified hx hy certified =>
    exact length_of_endsEarly (endsEarly_of_certified hx hy certified) nofun rfl
  | unbuildable admitted build => exact length_of_endsEarly (.inr (.inr ⟨_, build⟩)) nofun rfl
  | @unsolved x0 y0 sub st pr admitted build solve =>
    have hsolve := Progress.quiet_of_solveAt solve
    refine ⟨fun _ => ?_, fun h => absurd (.inl rfl) h⟩
    change pr.history.length = pr.outer + 1
    rw [hsolve.history, hsolve.outer]
    rfl
  | @halted sub h status pr visits turn =>
    have hcheck := quiet_of_halted turn
    refine ⟨fun _ => ?_, fun hno => absurd (.inr ⟨sub, h, status, pr, visits, turn⟩) hno⟩
    rw [finish_history, finish_outer, hcheck.history, hcheck.outer]
    exact (visits.onSchedule ho).length
  | @settled sub h r status pr visits turn =>
    have hinitial : status ≠ .initialFailed := by
      rintro rfl
      cases turn_cause turn with
      | settled _ _ _ verdict => exact verdict_grounds verdict
    refine ⟨?_, fun _ => ?_⟩
    · rintro (hst | ⟨sub', h', status', pr', visits', turn'⟩)
      · rw [finish_status] at hst
        exact absurd hst hinitial
      · exact absurd turn' (visits.not_halted turn visits')
    · rw [finish_history, finish_outer]
      cases turn_cause turn with
      | settled check _ level _ =>
        have hlevel := quiet_of_level check level
        rw [hlevel.history, hlevel.outer]
        exact (visits.onSchedule ho).length

end Course

variable (host p w s)

/-- The penalty history of a run. -/
theorem history_follows_schedule (ho : o.validate = .ok ()) :
    let sol := (runFrom host o p w s).1
    let history := sol.stats.history
    (history = [] ↔ w.Rejected p ∨ w.Certified o p ∨
      ∃ f, Subproblem.build p host.backend.needsDefinite o = .error f) ∧
    (history ≠ [] →
      history.head? = some ((w.penalty.filter isFinite).elim o.initialPenalty
        fun ρ => max o.initialPenalty (min ρ o.maxPenalty)) ∧
      history.IsChain (fun ρ next => next = min (ρ * o.penaltyGrowth) o.maxPenalty) ∧
      history.Pairwise (· < ·) ∧
      (∀ ρ ∈ history, o.initialPenalty ≤ ρ ∧ ρ ≤ o.maxPenalty) ∧
      o.maxPenalty ∉ history.dropLast ∧
      history.getLast? = some sol.stats.finalPenalty) ∧
    (sol.status = .initialFailed ∨ HaltsAtHead host o p w s →
      history.length = sol.stats.outer + 1) ∧
    (¬(sol.status = .initialFailed ∨ HaltsAtHead host o p w s) →
      history.length = sol.stats.outer) := by
  have hvalid := Options.validate_eq_ok_iff.mp ho
  have hcourse := runFrom_course host o p w s
  obtain ⟨hlong, hshort⟩ := length_of_course hvalid hcourse
  refine ⟨?_, ?_, hlong, hshort⟩
  · obtain ⟨hearly, hempty⟩ | ⟨hearly, earlier, hhistory, -⟩ := history_of_course hvalid hcourse
    · exact ⟨fun _ => hearly, fun _ => hempty⟩
    · refine ⟨fun hempty => ?_, fun h => absurd h hearly⟩
      simp [hhistory] at hempty
  · intro hne
    obtain ⟨-, hempty⟩ | ⟨-, earlier, hhistory, hsched⟩ := history_of_course hvalid hcourse
    · exact absurd hempty hne
    · rw [← firstPenalty_eq hvalid, hhistory]
      refine ⟨hsched.head, hsched.chain, hsched.sorted, fun ρ hρ => ?_, ?_, ?_⟩
      · exact ⟨hsched.low ρ hρ, (hsched.le_last hρ).trans hsched.high⟩
      · rw [List.dropLast_concat]
        exact fun hmem => absurd (hsched.lt_last hmem) (not_lt_of_ge hsched.high)
      · exact List.getLast?_concat

/-- A solver that ignores the pair drives the warm-up problem through all levels, from a penalty of
its own. -/
theorem history_follows_schedule_warmUp :
    Options.default.validate (K := ℚ) = .ok () ∧
    let stats := (runFrom (.answering [some .uncoupled]) Options.default Problem.warmUp
      ⟨none, none, some 3⟩ 0).1.stats
    stats.history.length = 26 ∧ stats.history.head? = some 3 ∧ stats.history.Pairwise (· < ·) ∧
      stats.history.getLast? = some stats.finalPenalty := by
  have ho := Options.validate_eq_ok_iff.mpr (Options.valid_default (K := ℚ) fun _ => rfl)
  have hlength : (runFrom (.answering [some .uncoupled]) Options.default Problem.warmUp
      ⟨none, none, some 3⟩ 0).1.stats.history.length = 26 := by decide +kernel
  obtain ⟨-, hschedule, -⟩ :=
    history_follows_schedule (.answering [some .uncoupled]) Problem.warmUp ⟨none, none, some 3⟩ 0 ho
  obtain ⟨hfirst, -, hsorted, -, -, hlast⟩ := hschedule (List.ne_nil_of_length_eq_add_one hlength)
  refine ⟨ho, hlength, hfirst.trans ?_, hsorted, hlast⟩
  norm_num [Options.default, isFinite, Option.filter]

end ComplementarityQP.Run
