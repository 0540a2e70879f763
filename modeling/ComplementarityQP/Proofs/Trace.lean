import ComplementarityQP.Proofs.Effort
import ComplementarityQP.Proofs.Exact
import ComplementarityQP.Proofs.Journal

/-! The records that a run keeps. Main statement: they are one of the start, a block of inner
records for each level with the raise of the penalty after it, and one of the end; their counters
leave nothing out and count nothing twice. -/
namespace ComplementarityQP

variable {K σ : Type}

theorem forall_getElem?_concat {α : Type} {P : Nat → α → Prop} {xs : List α} {x : α} :
    (∀ i a, (xs ++ [x])[i]? = some a → P i a) ↔ (∀ i a, xs[i]? = some a → P i a) ∧
      P xs.length x := by
  constructor
  · refine fun h => ⟨fun i a ha => h i a ?_, h xs.length x List.getElem?_concat_length⟩
    rw [List.getElem?_append_left (List.getElem?_eq_some_iff.mp ha).1, ha]
  · rintro ⟨hxs, hx⟩ i a ha
    obtain ha | ⟨rfl, rfl⟩ : xs[i]? = some a ∨ i = xs.length ∧ a = x := by
      rw [List.getElem?_append] at ha
      grind
    · exact hxs i a ha
    · exact hx

/-- The records of a level, and that of the raise of the penalty after it. -/
structure Block (K : Type) where
  inner : List (Record K)
  update : Option (Record K)

def Block.records (b : Block K) : List (Record K) := b.inner ++ b.update.toList

/-- The block of the level number `k`, from 0, in a run with these penalties. -/
structure Block.Fits (history : List K) (k : Nat) (b : Block K) : Prop where
  inner (j : Nat) (r : Record K) : b.inner[j]? = some r →
    r.phase = .inner ∧ r.outer = k + 1 ∧ r.inner = j + 1 ∧ history[k]? = some r.penalty
  update (r : Record K) : b.update = some r → r.phase = .penaltyUpdate ∧ r.outer = k + 1 ∧
    history[k + 1]? = some r.penalty

theorem Block.Fits.grow {history : List K} {k : Nat} {b : Block K} (h : b.Fits history k) (ρ : K) :
    b.Fits (history ++ [ρ]) k := by
  refine ⟨fun j r hr => ?_, fun r hr => ?_⟩
  · obtain ⟨hphase, houter, hinner, hpenalty⟩ := h.inner j r hr
    exact ⟨hphase, houter, hinner,
      List.getElem?_append_left (List.getElem?_eq_some_iff.mp hpenalty).1 ▸ hpenalty⟩
  · obtain ⟨hphase, houter, hpenalty⟩ := h.update r hr
    exact ⟨hphase, houter,
      List.getElem?_append_left (List.getElem?_eq_some_iff.mp hpenalty).1 ▸ hpenalty⟩

def countPhase (phase : Phase) (records : List (Record K)) : Nat :=
  records.countP fun r => r.phase = phase

theorem countPhase_append (phase : Phase) (records : List (Record K)) (r : Record K) :
    countPhase phase (records ++ [r]) =
      countPhase phase records + if r.phase = phase then 1 else 0 := by
  simp [countPhase, List.countP_append, List.countP_singleton]

/-- Every record counts the first subproblem and the inner records up to itself. -/
def Numbered (records : List (Record K)) : Prop :=
  ∀ i r, records[i]? = some r → r.total = 1 + countPhase .inner (records.take (i + 1))

theorem Numbered.append {records : List (Record K)} {r : Record K} (h : Numbered records)
    (hr : r.total = 1 + countPhase .inner (records ++ [r])) : Numbered (records ++ [r]) := by
  refine forall_getElem?_concat.mpr ⟨fun i r' hr' => ?_, ?_⟩
  · rw [List.take_append_of_le_length (List.getElem?_eq_some_iff.mp hr').1]
    exact h i r' hr'
  · rw [List.take_of_length_le (by simp)]
    exact hr

/-- The iterations that the records of solved subproblems report: the first one and those of the
inner loops. -/
def spent (records : List (Record K)) : Nat :=
  ((records.filter fun r => r.phase = .initialization || r.phase = .inner).map
    Record.qpIterations).sum

theorem spent_append (records : List (Record K)) (r : Record K) :
    spent (records ++ [r]) = spent records +
      if r.phase = .initialization ∨ r.phase = .inner then r.qpIterations else 0 := by
  by_cases hr : r.phase = .initialization ∨ r.phase = .inner
  · simp [spent, hr, List.filter_append]
  · simp [spent, hr, List.filter_append]

namespace Progress

/-- The counters agree with the records, where `lost` iterations were spent on a subproblem that
failed. -/
structure Tallied (lost : Nat) (pr : Progress K σ) : Prop where
  numbered : Numbered pr.trace
  total : pr.total = 1 + countPhase .inner pr.trace
  spent : pr.qpIterations = spent pr.trace + lost

variable {host : Host K σ} {o : Options K} {pr pr' : Progress K σ}

theorem emit_trace (host : Host K σ) (hkeep : o.storeSteps = true) (r : Record K) :
    (pr.emit host o r).trace = pr.trace ++ [r] := by
  simp [emit, hkeep]

theorem Tallied.shouldAbort [Sub K] [LT K] [DecidableLT K] {lost : Nat} (ht : pr.Tallied lost)
    {b : Bool} (h : pr.shouldAbort host o = (b, pr')) : pr'.Tallied lost := by
  obtain ⟨s, rfl⟩ := changes_of_shouldAbort h
  exact ⟨ht.numbered, ht.total, ht.spent⟩

/-- A record of another kind than those of subproblems leaves the tally as it is. -/
theorem Tallied.emit (host : Host K σ) (hkeep : o.storeSteps = true) {lost : Nat}
    (ht : pr.Tallied lost) {r : Record K}
    (hphase : r.phase = .penaltyUpdate ∨ r.phase = .terminated) (htotal : r.total = pr.total) :
    (pr.emit host o r).Tallied lost := by
  have hinner : r.phase ≠ .inner := by
    rintro h
    rw [h] at hphase
    simp at hphase
  have hinitial : r.phase ≠ .initialization := by
    rintro h
    rw [h] at hphase
    simp at hphase
  refine ⟨?_, ?_, ?_⟩
  · rw [emit_trace _ hkeep]
    refine ht.numbered.append ?_
    rw [countPhase_append, if_neg hinner, htotal, ht.total]
    rfl
  · rw [emit_trace _ hkeep, countPhase_append, if_neg hinner]
    exact ht.total
  · rw [emit_trace _ hkeep, spent_append, if_neg (by simp [hinner, hinitial])]
    exact ht.spent

theorem Tallied.solved (hkeep : o.storeSteps = true) (ht : pr.Tallied 0) {r : Record K}
    (hphase : r.phase = .inner) (htotal : r.total = pr.total + 1) {k : Nat}
    (hk : pr.qpIterations ≤ k) (hqp : r.qpIterations = k - pr.qpIterations) {last : Option QpStatus}
    {s : σ} :
    Tallied 0 (Progress.emit host o r
      { pr with total := pr.total + 1, qpIterations := k, lastQp := last, state := s }) := by
  -- The counter of iterations runs on, and the record has the difference to the last one.
  have hcount : 1 + countPhase .inner (pr.trace ++ [r]) = pr.total + 1 := by
    rw [countPhase_append, if_pos hphase, ht.total]
    rfl
  refine ⟨?_, ?_, ?_⟩
  · rw [emit_trace _ hkeep]
    exact ht.numbered.append (htotal.trans hcount.symm)
  · rw [emit_trace _ hkeep]
    exact hcount.symm
  · rw [emit_trace _ hkeep, spent_append, if_pos (.inr hphase), hqp]
    have hspent := ht.spent
    simp only [Progress.emit]
    omega

end Progress

/-- The iterations that a loop with this end has lost: those of its last call, if that has
failed. -/
def Lost (st : Option InnerStatus) (events : List (Event K)) (lost : Nat) : Prop :=
  match st with
  | some (.failed _) => ∃ call, (calls events).getLast? = some call ∧ lost = call.iterations
  | _ => lost = 0

theorem Lost.eq_zero {st : InnerStatus} {events : List (Event K)} {lost : Nat}
    (h : Lost (some st) events lost) (hst : failures (some st) = 0) : lost = 0 := by
  cases st with
  | failed s => cases hst
  | _ => exact h

theorem Lost.eq_iterations {st : InnerStatus} {events : List (Event K)} {lost : Nat}
    (h : Lost (some st) events lost) (hst : failures (some st) = 1) :
    ∃ call, (calls events).getLast? = some call ∧ lost = call.iterations := by
  cases st with
  | failed s => exact h
  | _ => cases hst

namespace Run

/-- The records so far: that of the start, and a block for each level begun, of which all but the
last have the raise of the penalty. -/
structure Shaped (lost : Nat) (first : Record K) (blocks : List (Block K)) (pr : Progress K σ) :
    Prop where
  tallied : pr.Tallied lost
  trace : pr.trace = first :: blocks.flatMap Block.records
  first : first.phase = .initialization
  levels : blocks.length = pr.outer
  fits (k : Nat) (b : Block K) : blocks[k]? = some b →
    b.Fits pr.history k ∧ (k + 1 < blocks.length → b.update.isSome = true)
  updates : countPhase .penaltyUpdate pr.trace + 1 = pr.history.length

theorem Shaped.shouldAbort [Sub K] [LT K] [DecidableLT K] {lost : Nat} {first : Record K}
    {blocks : List (Block K)} {pr pr' : Progress K σ} {host : Host K σ} {o : Options K}
    (hs : Shaped lost first blocks pr) {b : Bool} (check : pr.shouldAbort host o = (b, pr')) :
    Shaped lost first blocks pr' := by
  have htallied := hs.tallied.shouldAbort check
  obtain ⟨s, rfl⟩ := Progress.changes_of_shouldAbort check
  exact ⟨htallied, hs.trace, hs.first, hs.levels, hs.fits, hs.updates⟩

section Endings
variable [Zero K] [Add K] [Sub K] [Neg K] [Mul K] [LT K] [LE K] [DecidableLT K] [DecidableLE K]
  [OfScientific K] {p : Problem K} {host : Host K σ} {o : Options K} {first : Record K}
  {blocks : List (Block K)}

theorem report_trace (host : Host K σ) (hkeep : o.storeSteps = true) (phase : Phase)
    (it : Iterate p) (ρ : K) (pr : Progress K σ) :
    (report host o phase it ρ pr).trace =
      pr.trace ++ [outerRecord phase it ρ (p.stationarity ρ it) pr] :=
  Progress.emit_trace host hkeep _

/-- The raise of the penalty completes the last block. -/
theorem Shaped.raise (hkeep : o.storeSteps = true) (host : Host K σ) {pr : Progress K σ}
    {records : List (Record K)} (hs : Shaped 0 first (blocks ++ [⟨records, none⟩]) pr)
    (hhistory : pr.history.length = pr.outer) (ρ : K) (it : Iterate p) :
    ∃ update, Shaped 0 first (blocks ++ [⟨records, some update⟩])
      (report host o .penaltyUpdate it ρ { pr with history := pr.history ++ [ρ] }) := by
  have hraised : Progress.Tallied 0 { pr with history := pr.history ++ [ρ] } :=
    ⟨hs.tallied.numbered, hs.tallied.total, hs.tallied.spent⟩
  obtain ⟨hearlier, hlast, -⟩ := forall_getElem?_concat.mp hs.fits
  have hlevels : blocks.length + 1 = pr.outer := by simpa using hs.levels
  refine ⟨outerRecord .penaltyUpdate it ρ (p.stationarity ρ it)
    { pr with history := pr.history ++ [ρ] }, hraised.emit host hkeep (.inl rfl) rfl, ?_, hs.first,
    ?_, forall_getElem?_concat.mpr ⟨?_, ?_⟩, ?_⟩
  · rw [report_trace _ hkeep]
    simp [hs.trace, Block.records]
  · rw [List.length_append]
    exact hlevels
  · intro k b hk
    obtain ⟨hfits, hupdate⟩ := hearlier k b hk
    exact ⟨hfits.grow ρ, by simpa using hupdate⟩
  · refine ⟨⟨(hlast.grow ρ).inner, ?_⟩, fun _ => rfl⟩
    rintro _ ⟨⟩
    refine ⟨rfl, hlevels.symm, ?_⟩
    rw [hlevels, ← hhistory]
    exact List.getElem?_concat_length
  · rw [report_trace _ hkeep, countPhase_append]
    change countPhase .penaltyUpdate pr.trace + 1 + 1 = (pr.history ++ [ρ]).length
    rw [hs.updates, List.length_append]
    rfl

structure Layout (blocks : List (Block K)) {n m : Nat} (sol : Solution K n m) : Prop where
  trace : ∃ first last, sol.stats.trace = first :: blocks.flatMap Block.records ++ [last] ∧
    first.phase = .initialization ∧ last.phase = .terminated
  levels : blocks.length = sol.stats.outer
  fits (k : Nat) (b : Block K) : blocks[k]? = some b →
    b.Fits sol.stats.history k ∧ (k + 1 < blocks.length → b.update.isSome = true)
  numbered : Numbered sol.stats.trace
  inner : countPhase .inner sol.stats.trace + 1 = sol.stats.inner
  updates : countPhase .penaltyUpdate sol.stats.trace + 1 = sol.stats.history.length

/-- The iterations that a run has counted but not recorded are those of a subproblem that failed. -/
structure Accounted {n m : Nat} (sol : Solution K n m) (events : List (Event K)) : Prop where
  solved : ¬EndsOnFailure sol.status sol.stats.history →
    sol.stats.qpIterations = spent sol.stats.trace
  failed : EndsOnFailure sol.status sol.stats.history →
    ∃ call, (calls events).getLast? = some call ∧
      sol.stats.qpIterations = spent sol.stats.trace + call.iterations

variable [Special K] {e : Ending p} {pr : Progress K (σ × List (Event K))} {lost : Nat}

omit [LE K] [DecidableLE K] [Special K] in
theorem Shaped.close (hkeep : o.storeSteps = true) (hs : Shaped lost first blocks pr)
    (kind : Stationarity) (stationarity : K) :
    Layout blocks (close host.journaled o e kind stationarity pr).1 := by
  have htrace : (Run.close host.journaled o e kind stationarity pr).1.stats.trace =
      pr.trace ++ [outerRecord .terminated e.point e.penalty stationarity pr] :=
    Progress.emit_trace host.journaled hkeep _
  have hlast := hs.tallied.emit host.journaled hkeep
    (r := outerRecord .terminated e.point e.penalty stationarity pr) (.inr rfl) rfl
  refine ⟨⟨first, _, htrace.trans (congrArg (· ++ _) hs.trace), hs.first, rfl⟩, hs.levels, hs.fits,
    hlast.numbered, ?_, ?_⟩
  · exact (Nat.add_comm _ _).trans hlast.total.symm
  · rw [htrace, countPhase_append]
    exact hs.updates

theorem Shaped.finish (hkeep : o.storeSteps = true) (hs : Shaped lost first blocks pr) :
    Layout blocks (finish host.journaled o e pr).1 := by
  unfold Run.finish
  split
  · exact hs.close hkeep _ _
  · exact hs.close hkeep _ _

variable (hkeep : o.storeSteps = true) (hspent : pr.qpIterations = spent pr.trace + lost)
  (hlost : (EndsOnFailure e.status pr.history ∧ ∃ call, (calls pr.events).getLast? = some call ∧
    lost = call.iterations) ∨
    ¬EndsOnFailure e.status pr.history ∧ lost = 0)
include hkeep hspent hlost

omit [LE K] [DecidableLE K] [Special K] in
theorem accounted_close (kind : Stationarity) (stationarity : K) :
    Accounted (close host.journaled o e kind stationarity pr).1
      (close host.journaled o e kind stationarity pr).2.2 := by
  have htrace : (close host.journaled o e kind stationarity pr).1.stats.trace =
      pr.trace ++ [outerRecord .terminated e.point e.penalty stationarity pr] :=
    Progress.emit_trace host.journaled hkeep _
  have hcount : (close host.journaled o e kind stationarity pr).1.stats.qpIterations =
      spent (close host.journaled o e kind stationarity pr).1.stats.trace + lost := by
    rw [htrace, spent_append]
    exact hspent
  refine ⟨fun h => ?_, fun h => ?_⟩
  · obtain ⟨-, rfl⟩ := hlost.resolve_left fun hno => h hno.1
    exact hcount
  · obtain ⟨-, call, hcall, rfl⟩ := hlost.resolve_right fun hno => hno.1 h
    exact ⟨call, by rw [calls_of_close, hcall], hcount⟩

theorem accounted_finish :
    Accounted (finish host.journaled o e pr).1 (finish host.journaled o e pr).2.2 := by
  unfold finish
  split
  · refine accounted_close hkeep hspent ?_ _ _
    exact hlost
  · exact accounted_close hkeep hspent hlost _ _

end Endings

end Run

variable [Zero K] [One K] [Add K] [Sub K] [Neg K] [Mul K] [Div K] [LT K] [LE K] [DecidableLT K]
  [DecidableLE K] [OfScientific K] [Special K] [BEq K] {p : Problem K} {host : Host K σ}
  {o : Options K} {sub : Subproblem p}

namespace InnerLoop
variable {ρ : K}

theorem tallied_iterate (hkeep : o.storeSteps = true) {l l' : InnerLoop p}
    {pr pr' : Progress K (σ × List (Event K))} {st : Option InnerStatus} (ht : pr.Tallied 0)
    (h : l.iterate host.journaled o sub ρ pr = (st, l', pr')) :
    ∃ lost, Lost st pr'.events lost ∧ pr'.Tallied lost := by
  cases iterate_outcome h with
  | aborted check => exact ⟨0, rfl, ht.shouldAbort check⟩
  | failed check solve =>
    have hchecked := ht.shouldAbort check
    obtain ⟨call, hcall, hqp⟩ := Progress.calls_of_solveAt solve
    refine ⟨call.iterations, ⟨call, by rw [hcall, List.getLast?_concat], rfl⟩, ?_⟩
    obtain ⟨k, last, s, rfl⟩ := Progress.changes_of_solveAt solve
    exact ⟨hchecked.numbered, hchecked.total,
      hqp.trans (congrArg (· + call.iterations) hchecked.spent)⟩
  | @stepped pr₁ pr₂ _ a _ _ check solve report exit =>
    have hchecked := ht.shouldAbort check
    obtain ⟨call, -, hqp⟩ := Progress.calls_of_solveAt solve
    obtain ⟨k, last, s, rfl⟩ := Progress.changes_of_solveAt solve
    have hlost : Lost st pr'.events 0 := by
      obtain rfl | rfl | ⟨rfl, -⟩ := exit_status exit <;> rfl
    refine ⟨0, hlost, ?_⟩
    rw [report]
    exact hchecked.solved hkeep rfl rfl (Nat.le.intro hqp.symm) rfl

variable {it : Iterate p} {r : InnerResult p} {pr pr' : Progress K (σ × List (Event K))}

theorem tallied_run (hkeep : o.storeSteps = true) (ht : pr.Tallied 0)
    (h : run host.journaled o sub ρ it pr = (r, pr')) :
    ∃ lost, Lost (some r.status) pr'.events lost ∧ pr'.Tallied lost := by
  obtain ⟨last, pr₁, l, hpath, -, hend⟩ := run_ends h
  have hlast : pr₁.Tallied 0 := by
    refine hpath.keeps (I := fun _ pr => pr.Tallied 0) (fun ht hiter => ?_) ht
    obtain ⟨lost, rfl, ht'⟩ := tallied_iterate hkeep ht hiter
    exact ht'
  obtain ⟨hiter, -⟩ | ⟨hiter, -, hr⟩ := hend
  · exact tallied_iterate hkeep hlast hiter
  · rw [hr]
    have hlimit : ∃ lost, Lost none pr'.events lost ∧ pr'.Tallied lost :=
      tallied_iterate hkeep hlast hiter
    exact hlimit

structure Recorded (ρ : K) (pr : Progress K σ) (l : InnerLoop p) (pr' : Progress K σ)
    (records : List (Record K)) :
    Prop where
  trace : pr'.trace = pr.trace ++ records
  length : records.length = l.iterations
  outer : pr'.outer = pr.outer
  numbered (j : Nat) (record : Record K) : records[j]? = some record →
    record.phase = .inner ∧ record.outer = pr.outer ∧ record.inner = j + 1 ∧ record.penalty = ρ

theorem recorded_iterate {host : Host K σ} (hkeep : o.storeSteps = true) {pr₀ pr pr' : Progress K σ}
    {l l' : InnerLoop p} {st : Option InnerStatus} (hl : ∃ records, Recorded ρ pr₀ l pr records)
    (h : l.iterate host o sub ρ pr = (st, l', pr')) : ∃ records, Recorded ρ pr₀ l' pr' records := by
  obtain ⟨records, hl⟩ := hl
  cases iterate_outcome h with
  | aborted check =>
    obtain ⟨s, rfl⟩ := Progress.changes_of_shouldAbort check
    exact ⟨records, hl.trace, hl.length, hl.outer, hl.numbered⟩
  | failed check solve =>
    obtain ⟨s, rfl⟩ := Progress.changes_of_shouldAbort check
    obtain ⟨k, last, s', rfl⟩ := Progress.changes_of_solveAt solve
    exact ⟨records, hl.trace, hl.length, hl.outer, hl.numbered⟩
  | @stepped pr₁ pr₂ _ a _ _ check solve report exit =>
    obtain ⟨window, rfl⟩ := exit_loop exit
    obtain ⟨s, rfl⟩ := Progress.changes_of_shouldAbort check
    obtain ⟨k, last, s', rfl⟩ := Progress.changes_of_solveAt solve
    refine ⟨records ++ [l.record o ρ pr.total a pr.outer (k - pr.qpIterations)], ?_, ?_, ?_, ?_⟩
    · rw [report, Progress.emit_trace _ hkeep, ← List.append_assoc, ← hl.trace]
    · rw [List.length_append, hl.length]
      rfl
    · rw [report]
      exact hl.outer
    · exact forall_getElem?_concat.mpr
        ⟨hl.numbered, rfl, hl.outer, congrArg (· + 1) hl.length.symm, rfl⟩

theorem recorded_run {host : Host K σ} {pr pr' : Progress K σ} (hkeep : o.storeSteps = true)
    (h : run host o sub ρ it pr = (r, pr')) :
    ∃ l records, Recorded ρ pr (p := p) l pr' records := by
  have hstart : ∃ records, Recorded ρ pr (start p ρ it) pr records :=
    ⟨[], (List.append_nil _).symm, rfl, rfl, fun j record hj => by cases hj⟩
  obtain ⟨l, -, hl⟩ := run_invariant (I := fun l pr' => ∃ records, Recorded ρ pr l pr' records)
    (recorded_iterate hkeep) h hstart
  exact ⟨l, hl⟩

end InnerLoop

namespace Run

/-- At the head of the outer loop every block has its raise, and the penalty of the next level is
known. -/
structure Head.Recorded (first : Record K) (blocks : List (Block K))
    (h : Head p (σ × List (Event K))) : Prop where
  shaped : Shaped 0 first blocks h.progress
  raised (b : Block K) : b ∈ blocks → b.update.isSome = true
  history : ∃ earlier, h.progress.history = earlier ++ [h.penalty] ∧
    earlier.length = h.progress.outer

variable {h : Head p (σ × List (Event K))} {first : Record K} {blocks : List (Block K)}

/-- What a level adds: a block of its records, without a raise of the penalty. -/
theorem Head.Recorded.level (hkeep : o.storeSteps = true) (hh : h.Recorded first blocks)
    {pr₁ pr : Progress K (σ × List (Event K))} {r : InnerResult p} {b : Bool}
    (check : h.progress.shouldAbort host.journaled o = (b, pr₁))
    (level : InnerLoop.run host.journaled o sub h.penalty h.point
      { pr₁ with outer := pr₁.outer + 1 } = (r, pr)) :
    ∃ records lost, Lost (some r.status) pr.events lost ∧
      Shaped lost first (blocks ++ [⟨records, none⟩]) pr := by
  have hchecked := hh.shaped.shouldAbort check
  have hbegun : Progress.Tallied 0 { pr₁ with outer := pr₁.outer + 1 } :=
    ⟨hchecked.tallied.numbered, hchecked.tallied.total, hchecked.tallied.spent⟩
  obtain ⟨lost, hlost, htallied⟩ := InnerLoop.tallied_run hkeep hbegun level
  obtain ⟨l, records, hrecords⟩ := InnerLoop.recorded_run hkeep level
  have hquiet := quiet_of_level check level
  have hhistory : pr.history = h.progress.history := hquiet.history
  have houter : pr.outer = h.progress.outer + 1 := hquiet.outer
  have hcheckedOuter : pr₁.outer = h.progress.outer := (Progress.quiet_of_shouldAbort check).outer
  obtain ⟨earlier, hearlier, hlength⟩ := hh.history
  -- There is one penalty more than there are blocks, and it is that of the level.
  have hpenalty : pr.history[blocks.length]? = some h.penalty := by
    rw [hhistory, hearlier, hh.shaped.levels, ← hlength]
    exact List.getElem?_concat_length
  have hnone : countPhase .penaltyUpdate records = 0 := by
    refine List.countP_eq_zero.mpr fun record hmem => ?_
    obtain ⟨j, hj⟩ := List.getElem?_of_mem hmem
    simp [(hrecords.numbered j record hj).1]
  refine ⟨records, lost, hlost, htallied, ?_, hh.shaped.first, ?_,
    forall_getElem?_concat.mpr ⟨?_, ?_⟩, ?_⟩
  · rw [hrecords.trace, hchecked.trace]
    simp [Block.records]
  · rw [List.length_append, hh.shaped.levels, houter]
    rfl
  · intro k b hk
    rw [hhistory]
    exact ⟨(hh.shaped.fits k b hk).1, fun _ => hh.raised b (List.mem_of_getElem? hk)⟩
  · refine ⟨⟨fun j record hj => ?_, nofun⟩, fun hlt => ?_⟩
    · obtain ⟨hphase, hlevel, hinner, hρ⟩ := hrecords.numbered j record hj
      refine ⟨hphase, ?_, hinner, hpenalty.trans (congrArg some hρ.symm)⟩
      rw [hlevel, hcheckedOuter, hh.shaped.levels]
    · simp at hlt
  · rw [hrecords.trace, hhistory, ← hh.shaped.updates, countPhase, List.countP_append]
    change countPhase .penaltyUpdate pr₁.trace + countPhase .penaltyUpdate records + 1 = _
    rw [hnone, hchecked.trace, hh.shaped.trace]

theorem Head.Recorded.step (hkeep : o.storeSteps = true) {h' : Head p (σ × List (Event K))}
    (hh : h.Recorded first blocks) (ht : h.turn host.journaled o sub = .raised h') :
    ∃ b, h'.Recorded first (blocks ++ [b]) := by
  cases turn_cause ht with
  | @raised n pr₁ r pr check left level verdict =>
    obtain ⟨records, lost, hlost, hshaped⟩ := hh.level hkeep check level
    obtain rfl : lost = 0 := hlost.eq_zero (failures_of_verdict_none verdict)
    have hquiet := quiet_of_level check level
    obtain ⟨earlier, hearlier, hlength⟩ := hh.history
    have hhistory : pr.history.length = pr.outer := by
      rw [hquiet.history, hquiet.outer, ← hlength]
      simp [hearlier]
    obtain ⟨update, hraised⟩ :=
      hshaped.raise hkeep host.journaled hhistory (Run.raise o h.penalty) r.point
    refine ⟨⟨records, some update⟩, hraised, fun b hb => ?_, pr.history, rfl, hhistory⟩
    obtain hb | hb := List.mem_append.mp hb
    · exact hh.raised b hb
    · rw [List.mem_singleton.mp hb]
      rfl

variable [Root K] {w : WarmStart K} {s : σ}

theorem Begins.recorded (hkeep : o.storeSteps = true)
    (hb : Begins host.journaled o p w (s, []) sub h) :
    ∃ first, h.Recorded first [] := by
  cases hb with
  | @mk x0 y0 sub a pr admitted build solve =>
    obtain ⟨k, last, s', rfl⟩ := Progress.changes_of_solveAt solve
    refine ⟨outerRecord .initialization ⟨a.x, a.y⟩ (firstPenalty o w) _ _,
      ⟨⟨?_, ?_, ?_⟩, report_trace _ hkeep _ _ _ _, rfl, rfl, nofun, ?_⟩, nofun, [], rfl, rfl⟩
    · rw [firstHead, report_trace _ hkeep]
      exact Numbered.append (fun i r hr => by cases hr) rfl
    · rw [firstHead, report_trace _ hkeep]
      rfl
    · rw [firstHead, report_trace _ hkeep]
      rfl
    · rw [firstHead, report_trace _ hkeep]
      rfl

theorem Visits.recorded (hkeep : o.storeSteps = true)
    (hv : Visits host.journaled o p w (s, []) sub h) :
    ∃ first blocks, h.Recorded first blocks := by
  obtain ⟨start, hb, hr⟩ := hv
  obtain ⟨first, hfirst⟩ := hb.recorded hkeep
  refine hr.invariant (I := fun h => ∃ first blocks, h.Recorded first blocks) ?_ ⟨first, [], hfirst⟩
  rintro h h' ⟨first, blocks, hh⟩ ht
  obtain ⟨b, hb⟩ := hh.step hkeep ht
  exact ⟨first, blocks ++ [b], hb⟩

structure Told (host : Host K σ) (o : Options K) (p : Problem K) (w : WarmStart K)
    (sol : Solution K p.vars p.duals) (events : List (Event K)) : Prop where
  early : EndsEarly host o p w ∨ sol.status = .initialFailed → ∃ last, sol.stats.trace = [last] ∧
    last.phase = .terminated
  full : ¬(EndsEarly host o p w ∨ sol.status = .initialFailed) → ∃ blocks, Layout blocks sol
  accounted : Accounted sol events

omit [BEq K] in
theorem told_start (hkeep : o.storeSteps = true) (hearly : EndsEarly host o p w) {e : Ending p}
    (he : e.status ≠ .initialFailed) (kind : Stationarity) (stationarity : K) :
    let r := close host.journaled o e kind stationarity (.start host.journaled (s, []))
    Told host o p w r.1 r.2.2 := by
  refine ⟨fun _ => ⟨_, Progress.emit_trace host.journaled hkeep _, rfl⟩,
    fun h => absurd (.inl hearly) h, ?_⟩
  refine accounted_close hkeep rfl (.inr ⟨?_, rfl⟩) kind stationarity
  rintro (h | ⟨-, h⟩)
  · exact he h
  · exact h rfl

theorem told_of_course (hkeep : o.storeSteps = true)
    {r : Solution K p.vars p.duals × σ × List (Event K)}
    (course : Course host.journaled o p w (s, []) r) : Told host o p w r.1 r.2.2 := by
  cases course with
  | rejected start => exact told_start hkeep (.inl (rejected_of_error start)) (by simp) _ _
  | certified hx hy certified =>
    exact told_start hkeep (endsEarly_of_certified hx hy certified) (by simp) _ _
  | unbuildable admitted build =>
    have hearly : EndsEarly host o p w := .inr (.inr ⟨_, build⟩)
    exact told_start hkeep hearly (by simp) _ _
  | unsolved admitted build solve =>
    obtain ⟨call, hcall, hqp⟩ := Progress.calls_of_solveAt solve
    obtain ⟨k, last, s', rfl⟩ := Progress.changes_of_solveAt solve
    refine ⟨fun _ => ⟨_, Progress.emit_trace host.journaled hkeep _, rfl⟩,
      fun h => absurd (.inr rfl) h, ?_⟩
    exact accounted_close hkeep hqp
      (.inl ⟨.inl rfl, call, by rw [hcall, List.getLast?_concat], rfl⟩) _ _
  | @halted sub h status pr visits turn =>
    obtain ⟨first, blocks, hh⟩ := visits.recorded hkeep
    have hstatus : status = .aborted ∨ status = .maxIterations := by
      cases turn_cause turn with
      | aborted check => exact .inl rfl
      | limit check left => exact .inr rfl
    have hshaped : Shaped 0 first blocks pr := by
      cases turn_cause turn with
      | aborted check => exact hh.shaped.shouldAbort check
      | limit check left => exact hh.shaped.shouldAbort check
    refine ⟨?_, fun _ => ⟨blocks, hshaped.finish hkeep⟩,
      accounted_finish hkeep hshaped.tallied.spent (.inr ⟨?_, rfl⟩)⟩
    · rintro (hearly | hfailed)
      · exact absurd hearly visits.not_endsEarly
      · rw [finish_status] at hfailed
        obtain rfl | rfl := hstatus <;> cases hfailed
    · obtain rfl | rfl := hstatus <;> simp [EndsOnFailure]
  | @settled sub h r status pr visits turn =>
    obtain ⟨first, blocks, hh⟩ := visits.recorded hkeep
    cases turn_cause turn with
    | settled check left level verdict =>
      obtain ⟨records, lost, hlost, hshaped⟩ := hh.level hkeep check level
      -- A level has a penalty, so one that fails is told apart from a failure to build the
      -- subproblems.
      have hhistory : pr.history ≠ [] := by
        have hupdates := hshaped.updates
        rintro hnil
        rw [hnil] at hupdates
        cases hupdates
      refine ⟨?_, fun _ => ⟨_, hshaped.finish hkeep⟩,
        accounted_finish hkeep hshaped.tallied.spent ?_⟩
      · rintro (hearly | hfailed)
        · exact absurd hearly visits.not_endsEarly
        · rw [finish_status] at hfailed
          cases hfailed
          exact (verdict_grounds verdict).elim
      · exact (failures_of_verdict _ hhistory verdict).imp (And.imp_right hlost.eq_iterations)
          (And.imp_right hlost.eq_zero)

end Run

/-- A run that keeps its records leaves one of its end, and if it has come to its outer loop, one of
its start and a block for each level before that. The counters in the records agree with what the
run reports of itself. -/
theorem Run.trace_follows_run [Root K] (host : Host K σ) (o : Options K) (p : Problem K)
    (w : WarmStart K) (s : σ) (hkeep : o.storeSteps = true) :
    let sol := (runFrom host o p w s).1
    let trace := sol.stats.trace
    (EndsEarly host o p w ∨ sol.status = .initialFailed → ∃ last, trace = [last] ∧
      last.phase = .terminated) ∧
    (¬(EndsEarly host o p w ∨ sol.status = .initialFailed) →
      (∃ (first : Record K) (blocks : List (Block K)) (last : Record K),
        trace = first :: blocks.flatMap Block.records ++ [last] ∧ first.phase = .initialization ∧
        last.phase = .terminated ∧ blocks.length = sol.stats.outer ∧
        ∀ k b, blocks[k]? = some b → b.Fits sol.stats.history k ∧
        (k + 1 < blocks.length → b.update.isSome = true)) ∧
      Numbered trace ∧ countPhase .inner trace + 1 = sol.stats.inner ∧
      countPhase .penaltyUpdate trace + 1 = sol.stats.history.length) ∧
    (¬EndsOnFailure sol.status sol.stats.history → sol.stats.qpIterations = spent trace) ∧
    (EndsOnFailure sol.status sol.stats.history →
      ∃ call, (calls (journal host o p w s)).getLast? = some call ∧
      sol.stats.qpIterations = spent trace + call.iterations) := by
  have htold := told_of_course hkeep (runFrom_course host.journaled o p w (s, []))
  rw [runFrom_journaled] at htold
  refine ⟨htold.early, fun h => ?_, htold.accounted.solved, htold.accounted.failed⟩
  obtain ⟨blocks, hlayout⟩ := htold.full h
  obtain ⟨first, last, htrace, hfirst, hlast⟩ := hlayout.trace
  exact ⟨⟨first, blocks, last, htrace, hfirst, hlast, hlayout.levels, hlayout.fits⟩,
    hlayout.numbered, hlayout.inner, hlayout.updates⟩

/-- A solver that ignores the pair twice takes the warm-up problem through a level of one iteration
and a level of two. -/
theorem Run.trace_follows_run_warmUp :
    let o : Options ℚ := { Options.default with storeSteps := true }
    let host :=
      Host.answering [some .uncoupled, some .uncoupled, some ⟨#[1, 0], #[0, -2], .solved, 1⟩]
    let sol := (runFrom host o Problem.warmUp ⟨none, none, some 1⟩ 0).1
    o.storeSteps = true ∧ sol.status = .success ∧ sol.stats.outer = 2 ∧ sol.stats.trace.length = 6 ∧
      Numbered sol.stats.trace ∧ countPhase .inner sol.stats.trace + 1 = sol.stats.inner ∧
      countPhase .penaltyUpdate sol.stats.trace + 1 = sol.stats.history.length ∧
      sol.stats.qpIterations = spent sol.stats.trace := by
  intro o host sol
  have hend : sol.status = .success ∧ sol.stats.outer = 2 ∧
      sol.stats.trace.length = 6 := by decide +kernel
  obtain ⟨hstatus, houter, hlength⟩ := hend
  obtain ⟨hearly, hfull, hspent, -⟩ :=
    trace_follows_run host o Problem.warmUp ⟨none, none, some 1⟩ 0 rfl
  obtain ⟨-, hnumbered, hinner, hupdates⟩ := hfull fun h => by
    obtain ⟨last, htrace, -⟩ := hearly h
    have hone : sol.stats.trace.length = 1 := congrArg List.length htrace
    omega
  refine ⟨rfl, hstatus, houter, hlength, hnumbered, hinner, hupdates, hspent ?_⟩
  simp [sol, EndsOnFailure, hstatus]

end ComplementarityQP
