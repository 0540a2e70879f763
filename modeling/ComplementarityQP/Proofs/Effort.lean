import ComplementarityQP.Proofs.Journal
import ComplementarityQP.Proofs.Penalties
import Mathlib.Tactic.Positivity

/-! What a run costs. Main statement: the limits in the options bound its levels, its subproblems
and its calls of the solver, whatever the solver does; and the growth of the penalty bounds its
levels even without a limit. -/
namespace ComplementarityQP

variable {K σ : Type}

/-- The subproblem that has failed, if that is why an iteration ends the loop. -/
def failures : Option InnerStatus → Nat
  | some (.failed _) => 1
  | _ => 0

/-- Every call of the solver counts as a subproblem, but for `failed` of them. -/
def Progress.Balanced (failed : Nat) (pr : Progress K (σ × List (Event K))) : Prop :=
  (calls pr.events).length = pr.total + failed

namespace Run

def EndsOnFailure (status : RunStatus) (history : List K) : Prop :=
  status = .initialFailed ∨ status = .qpFailed ∧ history ≠ []

section Verdict
variable [LE K] [DecidableLE K] {p : Problem K} {o : Options K} {ρ : K} {r : InnerResult p}

theorem failures_of_verdict_none (h : verdict o ρ r = none) :
    failures (some r.status) = 0 := by
  cases hst : r.status with
  | failed st =>
    rw [verdict, hst] at h
    cases h
  | _ => rfl

theorem failures_of_verdict {status : RunStatus} (history : List K) (hhistory : history ≠ [])
    (h : verdict o ρ r = some status) :
    EndsOnFailure status history ∧ failures (some r.status) = 1 ∨
      ¬EndsOnFailure status history ∧ failures (some r.status) = 0 := by
  have hgrounds := verdict_grounds h
  cases status with
  | qpFailed =>
    obtain ⟨st, hst⟩ := hgrounds
    exact .inl ⟨.inr ⟨rfl, hhistory⟩, by rw [hst]; rfl⟩
  | success => exact .inr ⟨by simp [EndsOnFailure], by rw [hgrounds.1]; rfl⟩
  | maxPenalty => exact .inr ⟨by simp [EndsOnFailure], by rw [hgrounds.1]; rfl⟩
  | maxIterations => exact .inr ⟨by simp [EndsOnFailure], by rw [hgrounds.1]; rfl⟩
  | aborted =>
    exact .inr ⟨by simp [EndsOnFailure], by rw [show r.status = .aborted from hgrounds]; rfl⟩
  | initialFailed => exact hgrounds.elim
  | invalid => exact hgrounds.elim

end Verdict

/-- The levels and subproblems of a run are within their limits, and its calls are its subproblems
and the one that failed. -/
structure Thrifty (o : Options K) {n m : Nat} (sol : Solution K n m) (events : List (Event K)) :
    Prop where
  outer : sol.stats.outer ≤ o.maxOuter
  inner : sol.stats.inner ≤ 1 + sol.stats.outer * o.maxInner
  failed : EndsOnFailure sol.status sol.stats.history → (calls events).length = sol.stats.inner + 1
  solved : ¬EndsOnFailure sol.status sol.stats.history → (calls events).length = sol.stats.inner

section Close
variable [Zero K] [Add K] [Sub K] [Neg K] [Mul K] [LT K] [LE K] [DecidableLT K] [DecidableLE K]
  [OfScientific K] [Special K] {p : Problem K} {host : Host K σ} {o : Options K}

section Limits
variable {e : Ending p} {pr : Progress K (σ × List (Event K))} {failed : Nat}
  (houter : pr.outer ≤ o.maxOuter) (htotal : pr.total ≤ 1 + pr.outer * o.maxInner)
  (hb : pr.Balanced failed)
  (hfailed : EndsOnFailure e.status pr.history ∧ failed = 1 ∨ ¬EndsOnFailure e.status pr.history ∧
    failed = 0)
include houter htotal hb hfailed

omit [LE K] [DecidableLE K] [Special K] in
theorem thrifty_close (kind : Stationarity) (stationarity : K) :
    Thrifty o (close host.journaled o e kind stationarity pr).1
      (close host.journaled o e kind stationarity pr).2.2 := by
  refine ⟨houter, htotal, fun h => ?_, fun h => ?_⟩
  · obtain ⟨-, rfl⟩ := hfailed.resolve_right fun hno => hno.1 h
    rw [calls_of_close]
    exact hb
  · obtain ⟨-, rfl⟩ := hfailed.resolve_left fun hno => h hno.1
    rw [calls_of_close]
    exact hb

theorem thrifty_finish :
    Thrifty o (finish host.journaled o e pr).1 (finish host.journaled o e pr).2.2 := by
  unfold finish
  split
  · refine thrifty_close houter htotal hb ?_ _ _
    exact hfailed
  · exact thrifty_close houter htotal hb hfailed _ _

end Limits

omit [LE K] [DecidableLE K] [Special K] in
/-- A run that ends before its first subproblem costs nothing. -/
theorem thrifty_start {s : σ} {e : Ending p} (he : e.status ≠ .initialFailed) (kind : Stationarity)
    (stationarity : K) :
    let r := close host.journaled o e kind stationarity (.start host.journaled (s, []))
    Thrifty o r.1 r.2.2 := by
  have hbalanced : Progress.Balanced 0 (.start host.journaled (s, [])) := rfl
  refine thrifty_close (Nat.zero_le _) (Nat.zero_le _) hbalanced (.inr ⟨?_, rfl⟩) kind stationarity
  rintro (h | ⟨-, h⟩)
  · exact he h
  · exact h rfl

end Close

end Run

variable [Zero K] [One K] [Add K] [Sub K] [Neg K] [Mul K] [Div K] [LT K] [LE K] [DecidableLT K]
  [DecidableLE K] [OfScientific K] [Special K] [BEq K] {p : Problem K} {host : Host K σ}
  {o : Options K} {sub : Subproblem p}

namespace InnerLoop
variable {ρ : K}

theorem balanced_iterate {l l' : InnerLoop p} {pr pr' : Progress K (σ × List (Event K))}
    {st : Option InnerStatus} (hb : pr.Balanced 0)
    (h : l.iterate host.journaled o sub ρ pr = (st, l', pr')) : pr'.Balanced (failures st) := by
  unfold Progress.Balanced at hb ⊢
  cases iterate_outcome h with
  | aborted check =>
    rw [Progress.calls_of_shouldAbort check, (Progress.quiet_of_shouldAbort check).total]
    exact hb
  | failed check solve =>
    obtain ⟨call, hcall, -⟩ := Progress.calls_of_solveAt solve
    have htotal := (Progress.quiet_of_shouldAbort check).trans (Progress.quiet_of_solveAt solve)
    rw [hcall, Progress.calls_of_shouldAbort check, htotal.total, List.length_append, hb]
    rfl
  | @stepped pr₁ pr₂ _ a _ _ check solve report exit =>
    obtain ⟨call, hcall, -⟩ := Progress.calls_of_solveAt solve
    have htotal := (Progress.quiet_of_shouldAbort check).trans (Progress.quiet_of_solveAt solve)
    have hfailures : failures st = 0 := by
      obtain rfl | rfl | ⟨rfl, -⟩ := exit_status exit <;> rfl
    rw [report, Progress.calls_of_emit, hfailures]
    change (calls pr₂.events).length = pr₂.total + 1 + 0
    rw [hcall, Progress.calls_of_shouldAbort check, htotal.total, List.length_append, hb]
    rfl

variable {it : Iterate p} {r : InnerResult p}

theorem balanced_run {pr pr' : Progress K (σ × List (Event K))} (hb : pr.Balanced 0)
    (h : run host.journaled o sub ρ it pr = (r, pr')) :
    pr'.Balanced (failures (some r.status)) := by
  obtain ⟨last, pr₁, l, hpath, -, hend⟩ := run_ends h
  have hlast : pr₁.Balanced 0 :=
    hpath.keeps (I := fun _ pr => pr.Balanced 0) (fun hb hiter => balanced_iterate hb hiter) hb
  obtain ⟨hiter, -⟩ | ⟨hiter, -, hr⟩ := hend
  · exact balanced_iterate hlast hiter
  · rw [hr]
    have hlimit : pr'.Balanced (failures none) := balanced_iterate hlast hiter
    exact hlimit

theorem iterations_le {host : Host K σ} {pr pr' : Progress K σ} (hmax : o.maxInner ≠ 0)
    (h : run host o sub ρ it pr = (r, pr')) : r.iterations ≤ o.maxInner := by
  obtain ⟨last, pr₁, l, -, hlimit, ⟨hiter, hr⟩ | ⟨hiter, -, hr⟩⟩ := run_ends h
  · have hcount := iterations_of_some hiter
    rw [hr]
    change l.iterations ≤ o.maxInner
    split at hcount <;> omega
  · have hcount := iterations_of_none hiter
    rw [hr]
    change l.iterations ≤ o.maxInner
    omega

end InnerLoop

namespace Run

structure Head.Counted (o : Options K) (h : Head p (σ × List (Event K))) : Prop where
  levels : h.left + h.progress.outer = o.maxOuter
  total : h.progress.total ≤ 1 + h.progress.outer * o.maxInner
  balanced : h.progress.Balanced 0
  history : h.progress.history ≠ []

section Level
variable {h : Head p (σ × List (Event K))} {pr₁ pr : Progress K (σ × List (Event K))}
  {r : InnerResult p}

/-- A level counts itself, at most the iterations it is allowed, and all of its calls but one that
fails. -/
theorem Head.Counted.level (hc : h.Counted o) (hmax : o.maxInner ≠ 0) {b : Bool}
    (check : h.progress.shouldAbort host.journaled o = (b, pr₁))
    (level : InnerLoop.run host.journaled o sub h.penalty h.point
      { pr₁ with outer := pr₁.outer + 1 } = (r, pr)) :
    pr.outer = h.progress.outer + 1 ∧ pr.total ≤ 1 + pr.outer * o.maxInner ∧
      pr.Balanced (failures (some r.status)) ∧ pr.history ≠ [] := by
  have hquiet := quiet_of_level check level
  have hiterations := InnerLoop.iterations_le hmax level
  have hbalanced : Progress.Balanced 0 { pr₁ with outer := pr₁.outer + 1 } := by
    change (calls pr₁.events).length = pr₁.total + 0
    rw [Progress.calls_of_shouldAbort check, (Progress.quiet_of_shouldAbort check).total]
    exact hc.balanced
  refine ⟨hquiet.outer, ?_, InnerLoop.balanced_run hbalanced level, ?_⟩
  · have htotal := hc.total
    rw [hquiet.total, hquiet.outer, Nat.add_mul]
    simp only
    omega
  · rw [hquiet.history]
    exact hc.history

theorem Head.Counted.step {h' : Head p (σ × List (Event K))} (hc : h.Counted o)
    (hmax : o.maxInner ≠ 0) (ht : h.turn host.journaled o sub = .raised h') : h'.Counted o := by
  cases turn_cause ht with
  | @raised n pr₁ r pr check left level verdict =>
    obtain ⟨houter, htotal, hbalanced, -⟩ := hc.level hmax check level
    refine ⟨?_, htotal, ?_, by simp [Head.after, report, Progress.emit]⟩
    · have hlevels := hc.levels
      change n + pr.outer = o.maxOuter
      omega
    · rw [failures_of_verdict_none verdict] at hbalanced
      change (calls (Progress.emit host.journaled o _ _).events).length = pr.total + 0
      rw [Progress.calls_of_emit]
      exact hbalanced

end Level

variable [Root K] {w : WarmStart K} {s : σ}

theorem Begins.counted {h : Head p (σ × List (Event K))}
    (hb : Begins host.journaled o p w (s, []) sub h) :
    h.Counted o := by
  cases hb with
  | @mk x0 y0 sub a pr admitted build solve =>
    have hquiet := Progress.quiet_of_solveAt solve
    obtain ⟨call, hcall, -⟩ := Progress.calls_of_solveAt solve
    have houter : pr.outer = 0 := hquiet.outer
    have htotal : pr.total = 0 := hquiet.total
    have hhistory : pr.history = [firstPenalty o w] := hquiet.history
    refine ⟨?_, ?_, ?_, ?_⟩
    · change o.maxOuter + pr.outer = o.maxOuter
      omega
    · change pr.total + 1 ≤ 1 + pr.outer * o.maxInner
      omega
    · change (calls (Progress.emit host.journaled o _ _).events).length = pr.total + 1 + 0
      rw [Progress.calls_of_emit, htotal]
      change (calls pr.events).length = _
      rw [hcall]
      rfl
    · change pr.history ≠ []
      simp [hhistory]

theorem Visits.counted (hmax : o.maxInner ≠ 0) {h : Head p (σ × List (Event K))}
    (hv : Visits host.journaled o p w (s, []) sub h) : h.Counted o := by
  obtain ⟨first, hb, hr⟩ := hv
  exact hr.invariant (fun hh ht => hh.step hmax ht) hb.counted

theorem thrifty_of_course (hmax : o.maxInner ≠ 0)
    {r : Solution K p.vars p.duals × σ × List (Event K)}
    (course : Course host.journaled o p w (s, []) r) : Thrifty o r.1 r.2.2 := by
  cases course with
  | rejected start => exact thrifty_start (by simp) _ _
  | certified hx hy certified => exact thrifty_start (by simp) _ _
  | unbuildable admitted build => exact thrifty_start (by simp) _ _
  | @unsolved x0 y0 sub st pr admitted build solve =>
    have hquiet := Progress.quiet_of_solveAt solve
    obtain ⟨call, hcall, -⟩ := Progress.calls_of_solveAt solve
    have houter : pr.outer = 0 := hquiet.outer
    have htotal : pr.total = 0 := hquiet.total
    have hbalanced : pr.Balanced 1 := by
      rw [Progress.Balanced, hcall, htotal]
      rfl
    exact thrifty_close (by omega) (by omega) hbalanced (.inl ⟨.inl rfl, rfl⟩) _ _
  | @halted sub h status pr visits turn =>
    have hcounted := visits.counted hmax
    have hquiet := quiet_of_halted turn
    have hlevels := hcounted.levels
    have hcalls : calls pr.events = calls h.progress.events := by
      cases turn_cause turn with
      | aborted check => exact Progress.calls_of_shouldAbort check
      | limit check _ => exact Progress.calls_of_shouldAbort check
    have hbalanced : pr.Balanced 0 := by
      rw [Progress.Balanced, hcalls, hquiet.total]
      exact hcounted.balanced
    refine thrifty_finish ?_ ?_ hbalanced (.inr ⟨?_, rfl⟩)
    · rw [hquiet.outer]
      omega
    · rw [hquiet.outer, hquiet.total]
      exact hcounted.total
    · cases turn_cause turn <;> simp [EndsOnFailure]
  | @settled sub h r status pr visits turn =>
    have hcounted := visits.counted hmax
    have hlevels := hcounted.levels
    cases turn_cause turn with
    | settled check left level verdict =>
      obtain ⟨houter, htotal, hbalanced, hhistory⟩ := hcounted.level hmax check level
      exact thrifty_finish (by omega) htotal hbalanced (failures_of_verdict _ hhistory verdict)

end Run

section Growth
open Run
variable {F : Type} [Field F] [LinearOrder F] [IsStrictOrderedRing F] [Special F] {o : Options F}

/-- The schedule rises at least as the powers of the growth factor do, up to the largest penalty. -/
theorem Run.Schedule.le_getElem (ho : o.Valid) {first last : F} {earlier : List F}
    (h : Schedule o first earlier last) (i : Nat) (hi : i < (earlier ++ [last]).length) :
    min (first * o.penaltyGrowth ^ i) o.maxPenalty ≤ (earlier ++ [last])[i] := by
  have hmax : 0 < o.maxPenalty := ho.initialPenalty.1.trans_le ho.maxPenalty.1
  have hgrowth : 1 < o.penaltyGrowth := ho.penaltyGrowth.1
  -- By induction on the place: a raise multiplies by the growth factor and cuts off at the largest
  -- penalty.
  induction i with
  | zero =>
    have hfirst : (earlier ++ [last])[0] = first := by
      have hhead := h.head
      rw [List.head?_eq_getElem?, List.getElem?_eq_getElem hi] at hhead
      exact Option.some.inj hhead
    rw [hfirst, pow_zero, mul_one]
    exact min_le_left _ _
  | succ i ih =>
    rw [h.chain.getElem i hi]
    refine le_min ?_ (min_le_right _ _)
    calc min (first * o.penaltyGrowth ^ (i + 1)) o.maxPenalty
        ≤ min (first * o.penaltyGrowth ^ i) o.maxPenalty * o.penaltyGrowth := by
          rw [min_mul_of_nonneg _ _ (by positivity), pow_succ, mul_assoc]
          exact min_le_min_left _ (le_mul_of_one_le_right hmax.le hgrowth.le)
      _ ≤ (earlier ++ [last])[i] * o.penaltyGrowth := by
          gcongr
          exact ih (by omega)

/-- The schedule ends where the powers of the growth factor reach the largest penalty, if not
before. -/
theorem Run.Schedule.length_le (ho : o.Valid) {first last : F} {earlier : List F}
    (h : Schedule o first earlier last) {k : Nat}
    (hk : o.maxPenalty ≤ first * o.penaltyGrowth ^ k) :
    (earlier ++ [last]).length ≤ k + 1 := by
  by_contra hlong
  have hreached := h.le_getElem ho k (by omega)
  rw [min_eq_right hk] at hreached
  have hnext : (earlier ++ [last])[k] < (earlier ++ [last])[k + 1] :=
    List.pairwise_iff_getElem.mp h.sorted k (k + 1) (by omega) (by omega) (by omega)
  have hhigh : (earlier ++ [last])[k + 1] ≤ o.maxPenalty :=
    (h.le_last (List.getElem_mem _)).trans h.high
  exact absurd (hreached.trans_lt (hnext.trans_le hhigh)) (lt_irrefl _)

theorem Run.outer_le_of_growth [Root F] {host : Host F σ} {p : Problem F} {w : WarmStart F} {s : σ}
    (ho : o.Valid) {r : Solution F p.vars p.duals × σ} (course : Course host o p w s r) {first : F}
    (hfirst : r.1.stats.history.head? = some first) {k : Nat}
    (hk : o.maxPenalty ≤ first * o.penaltyGrowth ^ k) :
    r.1.stats.outer ≤ k + 1 := by
  have houter : r.1.stats.outer ≤ r.1.stats.history.length := by
    obtain ⟨hlong, hshort⟩ := length_of_course ho course
    by_cases h : r.1.status = .initialFailed ∨ HaltsAtHead host o p w s
    · rw [hlong h]
      exact Nat.le_succ _
    · rw [hshort h]
  obtain ⟨-, hempty⟩ | ⟨-, earlier, hhistory, hsched⟩ := history_of_course ho course
  · rw [hempty] at hfirst
    cases hfirst
  · rw [hhistory, hsched.head] at hfirst
    cases hfirst
    rw [hhistory] at houter
    exact houter.trans (hsched.length_le ho hk)

end Growth

end ComplementarityQP
