import ComplementarityQP.Proofs.Exact
import ComplementarityQP.Proofs.Journal
import ComplementarityQP.Proofs.Options

/-! Runs from a start that is a solution already. Main statement: such a run returns its start
without a question to the solver or a look at the request to stop, and so does every run that goes
on from what it returns. No other run succeeds without asking the solver. -/
namespace ComplementarityQP

variable {K σ : Type} [Zero K] [One K] [Add K] [Sub K] [Neg K] [Mul K] [Div K] [LT K] [LE K]
  [DecidableLT K] [DecidableLE K] [OfScientific K] [Special K] [BEq K] {host : Host K σ}
  {o : Options K} {p : Problem K}

/-- A level that ends stationary has asked the solver. -/
theorem InnerLoop.calls_of_stationary {sub : Subproblem p} {ρ : K} {it : Iterate p}
    {r : InnerResult p} {pr pr' : Progress K (σ × List (Event K))}
    (level : run host.journaled o sub ρ it pr = (r, pr')) (hst : r.status = .stationary) :
    calls pr'.events ≠ [] := by
  obtain ⟨last, pr₁, l, hpath, hiter, -⟩ := ends_by_status level (by simp [hst])
  rw [hst] at hiter
  cases iterate_outcome hiter with
  | @stepped _ pr₂ _ _ _ _ check solve report exit =>
    obtain ⟨call, hcall, -⟩ := Progress.calls_of_solveAt solve
    rw [report, Progress.calls_of_emit]
    change calls pr₂.events ≠ []
    simp [hcall]

omit [Div K] [BEq K] in
theorem Problem.sizes_of_isCertified {x y : Array K} (h : p.isCertified o x y = true) :
    x.size = p.vars ∧ y.size = p.duals := by
  unfold isCertified Vec.ofArray? at h
  split at h
  · rename_i hx hy
    exact ⟨(Option.dite_none_right_eq_some.mp hx).1, (Option.dite_none_right_eq_some.mp hy).1⟩
  · cases h

omit [Div K] [BEq K] in
/-- Where every scalar is a proper number, a start that is a solution is accepted. -/
theorem WarmStart.Certified.not_rejected [Exact K] {w : WarmStart K} (h : w.Certified o p) :
    ¬w.Rejected p := by
  have husable {n : Nat} {xs : Array K} (hsize : xs.size = n) : ¬Unusable n (some xs) := by
    rintro ⟨_, ⟨⟩, hlength | ⟨v, -, hv⟩⟩
    · exact hlength hsize
    · cases hv.symm.trans (Exact.isFinite v)
  obtain ⟨x, y, hx, hy, hcert⟩ := h
  obtain ⟨hsx, hsy⟩ := Problem.sizes_of_isCertified hcert
  unfold Rejected
  rw [hx, hy]
  exact not_or.mpr ⟨husable hsx, husable hsy⟩

namespace Run

variable [Root K] {w : WarmStart K} {s : σ}

section Course

theorem not_rejected_of_success {r : Solution K p.vars p.duals × σ} (course : Course host o p w s r)
    (hsuccess : r.1.status = .success) : ¬w.Rejected p := by
  cases course with
  | rejected => cases hsuccess
  | certified hx hy => exact not_rejected_of_ok hx hy
  | unbuildable admitted => exact admitted.not_rejected
  | unsolved admitted => exact admitted.not_rejected
  | halted visits => exact visits.not_rejected
  | settled visits => exact visits.not_rejected

theorem certified_of_unasked {r : Solution K p.vars p.duals × σ × List (Event K)}
    (course : Course host.journaled o p w (s, []) r) (hsuccess : r.1.status = .success)
    (hcalls : calls r.2.2 = []) :
    w.Certified o p := by
  by_contra hcert
  obtain ⟨sub, h, n, pr₁, res, pr, -, -, -, level, hstationary, rfl⟩ :=
    level_of_success course hsuccess hcert
  rw [calls_of_finish] at hcalls
  exact InnerLoop.calls_of_stationary level hstationary hcalls

theorem returned_of_course {r : Solution K p.vars p.duals × σ} (course : Course host o p w s r)
    (hrejected : ¬w.Rejected p) (hcert : w.Certified o p) :
    ∃ x y, w.x = some x.toArray ∧ w.y = some y.toArray ∧ r = succeed host o
      ⟨⟨x, y⟩, (w.penalty.filter isFinite).getD o.initialPenalty, 0, .success⟩ (.start host s) := by
  cases course with
  | rejected start => exact absurd (rejected_of_error start) hrejected
  | certified hx hy => exact ⟨_, _, startVector_ok hx, startVector_ok hy, rfl⟩
  | unbuildable admitted => exact absurd hcert admitted.not_certified
  | unsolved admitted => exact absurd hcert admitted.not_certified
  | halted visits => exact absurd (.inr (.inl hcert)) visits.not_endsEarly
  | settled visits => exact absurd (.inr (.inl hcert)) visits.not_endsEarly

end Course

/-- From one start that is a solution, runs in any surroundings return the same but for the time
they took. -/
theorem runFrom_same {τ : Type} {host' : Host K τ} {w' : WarmStart K} {t : τ}
    (hrejected : ¬w.Rejected p) (hcert : w.Certified o p) (hx : w'.x = w.x) (hy : w'.y = w.y)
    (hpenalty : (w'.penalty.filter isFinite).getD o.initialPenalty =
      (w.penalty.filter isFinite).getD o.initialPenalty) :
    let sol := (runFrom host o p w s).1
    let again := (runFrom host' o p w' t).1
    again = { sol with stats := { sol.stats with elapsed := again.stats.elapsed } } := by
  have hrejected' : ¬w'.Rejected p := by
    unfold WarmStart.Rejected
    rw [hx, hy]
    exact hrejected
  have hcert' : w'.Certified o p := by
    unfold WarmStart.Certified
    rw [hx, hy]
    exact hcert
  obtain ⟨x, y, hwx, hwy, hr⟩ := returned_of_course (runFrom_course host o p w s) hrejected hcert
  obtain ⟨x', y', hwx', hwy', hr'⟩ :=
    returned_of_course (runFrom_course host' o p w' t) hrejected' hcert'
  obtain rfl : x' = x := Vector.toArray_inj.mp (Option.some.inj (hwx'.symm.trans (hx.trans hwx)))
  obtain rfl : y' = y := Vector.toArray_inj.mp (Option.some.inj (hwy'.symm.trans (hy.trans hwy)))
  rw [hr, hr', hpenalty]
  rfl

variable (host o p w s)

def AtOnce : Prop := (runFrom host o p w s).1.status = .success ∧ calls (journal host o p w s) = []

/-- The solutions of the run, and of runs that go on from one of these, in whatever surroundings. -/
inductive Resumed : Solution K p.vars p.duals → Prop
  | first {σ : Type} (host : Host K σ) (s : σ) : Resumed (runFrom host o p w s).1
  | again {sol : Solution K p.vars p.duals} {σ : Type} (before : Resumed sol) (host : Host K σ)
    (s : σ) :
      Resumed (runFrom host o p sol.warmStart s).1

variable {o p w}

theorem idle_journal (hrejected : ¬w.Rejected p) (hcert : w.Certified o p) :
    Idle (journal host o p w s) := by
  obtain ⟨x, y, -, -, hr⟩ :=
    returned_of_course (runFrom_course host.journaled o p w (s, [])) hrejected hcert
  obtain ⟨added, hadded, hidle⟩ := events_close host o
    ⟨⟨x, y⟩, (w.penalty.filter isFinite).getD o.initialPenalty, 0, .success⟩
    (p.classify o.complementarityTol x y) (p.residual x y).norm (.start host.journaled (s, []))
  have hevents : journal host o p w s = [.timed (host.clock s).1] ++ added := by
    rw [journal, hr]
    exact hadded
  rw [hevents]
  refine List.forall_mem_append.mpr ⟨fun e he => ?_, hidle⟩
  obtain rfl := List.mem_singleton.mp he
  exact ⟨rfl, rfl⟩

theorem atOnce_iff : AtOnce host o p w s ↔ ¬w.Rejected p ∧ w.Certified o p := by
  constructor
  · rintro ⟨hsuccess, hcalls⟩
    refine ⟨not_rejected_of_success (runFrom_course host o p w s) hsuccess, ?_⟩
    rw [← runFrom_journaled] at hsuccess
    exact certified_of_unasked (runFrom_course host.journaled o p w (s, [])) hsuccess hcalls
  · rintro ⟨hrejected, hcert⟩
    obtain ⟨x, y, -, -, hr⟩ := returned_of_course (runFrom_course host o p w s) hrejected hcert
    refine ⟨?_, (idle_journal host s hrejected hcert).calls_eq⟩
    rw [hr]
    rfl

theorem Resumed.same (ho : o.Valid) (hrejected : ¬w.Rejected p) (hcert : w.Certified o p)
    {again : Solution K p.vars p.duals} (h : Resumed o p w again) :
    let sol := (runFrom host o p w s).1
    again = { sol with stats := { sol.stats with elapsed := again.stats.elapsed } } := by
  intro sol
  -- By induction on the number of runs: each leaves the next one the vectors and the penalty that
  -- it was left itself.
  induction h with
  | first host' t => exact runFrom_same hrejected hcert rfl rfl rfl
  | @again before τ _ host' t ih =>
    obtain ⟨x, y, hx, hy, hr⟩ := returned_of_course (runFrom_course host o p w s) hrejected hcert
    have hstart : before.warmStart =
        ⟨w.x, w.y, some ((w.penalty.filter isFinite).getD o.initialPenalty)⟩ := by
      rw [ih, hx, hy]
      change sol.warmStart = _
      rw [show sol = _ from congrArg Prod.fst hr]
      rfl
    have hfinite : isFinite ((w.penalty.filter isFinite).getD o.initialPenalty) = true := by
      cases hpenalty : w.penalty.filter isFinite with
      | none => exact ho.initialPenalty.2
      | some ρ => exact (Option.filter_eq_some_iff.mp hpenalty).2
    rw [hstart]
    refine runFrom_same hrejected hcert rfl rfl ?_
    rw [Option.filter_some, if_pos hfinite]
    rfl

variable (o p w)

/-- A start that is a solution is returned as it is, whatever its penalty, and so it is by every run
that goes on from there. A run without such a start does not succeed without asking the solver. -/
theorem certified_start_is_fixed_point (ho : o.validate = .ok ()) :
    let sol := (runFrom host o p w s).1
    (¬w.Rejected p → w.Certified o p →
      sol.status = .success ∧ w.x = some sol.x.toArray ∧ w.y = some sol.y.toArray ∧
      sol.stats.outer = 0 ∧ sol.stats.inner = 0 ∧ sol.stats.qpIterations = 0 ∧
      sol.stats.history = [] ∧
      Idle (journal host o p w s) ∧
      ∀ again, Resumed o p w again →
        again = { sol with stats := { sol.stats with elapsed := again.stats.elapsed } }) ∧
    (w.x = none ∨ w.y = none ∨ (∃ x y, w.x = some x ∧ w.y = some y ∧ p.isCertified o x y = false) →
      ¬AtOnce host o p w s) := by
  intro sol
  refine ⟨fun hrejected hcert => ?_, fun hstart honce => ?_⟩
  · have hsame (again) (h : Resumed o p w again) :=
      h.same host s (Options.validate_eq_ok_iff.mp ho) hrejected hcert
    have hidle := idle_journal host s hrejected hcert
    obtain ⟨x, y, hx, hy, hr⟩ := returned_of_course (runFrom_course host o p w s) hrejected hcert
    have hsol : sol = _ := congrArg Prod.fst hr
    refine ⟨?_, ?_, ?_, ?_, ?_, ?_, ?_, hidle, hsame⟩
    all_goals rw [hsol]
    · rfl
    · exact hx
    · exact hy
    · rfl
    · rfl
    · rfl
    · rfl
  · obtain ⟨x, y, hx, hy, hcert⟩ := ((atOnce_iff host s).mp honce).2
    obtain h | h | ⟨x', y', hx', hy', hnot⟩ := hstart
    · cases h.symm.trans hx
    · cases h.symm.trans hy
    · cases hx.symm.trans hx'
      cases hy.symm.trans hy'
      cases hcert.symm.trans hnot

end Run

/-- Minimise `100 x y` under `0 ≤ x ⟂ y ≥ 0`. No shift that is tried makes it convex. -/
def Problem.saddle : Problem ℚ :=
  { warmUp with quad := Mat.ofFn fun i j => if i = j then 0 else 100, lin := Vec.zero _ }

/-- The run is cancelled, has no subproblem and no solver that answers, and a penalty far beyond the
largest. -/
theorem Run.certified_start_is_fixed_point_saddle :
    let o : Options ℚ := .default
    let host : Host ℚ Nat := { Host.answering [] with cancelled := fun s => (true, s) }
    let w : WarmStart ℚ := ⟨some #[1, 0], some #[0, 100], some 1000000000000⟩
    let sol := (runFrom host o Problem.saddle w 0).1
    let again := (runFrom host o Problem.saddle sol.warmStart 0).1
    o.validate = .ok () ∧ ¬w.Rejected Problem.saddle ∧ w.Certified o Problem.saddle ∧
    (Subproblem.build Problem.saddle true o).isOk = false ∧
    sol.status = .success ∧ w.x = some sol.x.toArray ∧ w.y = some sol.y.toArray ∧
    Idle (journal host o Problem.saddle w 0) ∧
    again = { sol with stats := { sol.stats with elapsed := again.stats.elapsed } } ∧
    ¬AtOnce host o Problem.saddle { w with y := none } 0 := by
  intro o host w sol again
  have ho : o.validate = .ok () :=
    Options.validate_eq_ok_iff.mpr (Options.valid_default fun _ => rfl)
  have hcert : w.Certified o Problem.saddle := ⟨#[1, 0], #[0, 100], rfl, rfl, by decide +kernel⟩
  have hrejected : ¬w.Rejected Problem.saddle := hcert.not_rejected
  obtain ⟨hreturned, -⟩ := certified_start_is_fixed_point host o Problem.saddle w 0 ho
  obtain ⟨-, hother⟩ :=
    certified_start_is_fixed_point host o Problem.saddle { w with y := none } 0 ho
  obtain ⟨hstatus, hsx, hsy, -, -, -, -, hidle, hagain⟩ := hreturned hrejected hcert
  exact ⟨ho, hrejected, hcert, by decide +kernel, hstatus, hsx, hsy, hidle,
    hagain _ (.again (.first host 0) host 0), hother (.inr (.inl rfl))⟩

end ComplementarityQP
