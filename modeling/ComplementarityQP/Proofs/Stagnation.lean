import ComplementarityQP.Proofs.Exact
import ComplementarityQP.Proofs.FloatOrder
import ComplementarityQP.Proofs.Iteration
import ComplementarityQP.Proofs.Options

/-! The stagnation test. Main statement: an entry stagnates exactly if the window before it is full
and it is not satisfactory nor small against any of the values in the window, which are the last
ones entered; so an inner loop that asks for a larger penalty has had a full window of iterations
and has not improved on any of them. -/
namespace ComplementarityQP

variable {K σ : Type}

namespace Window

theorem mem_rtake_iff {size : Nat} {values : List K} {v : K} :
    v ∈ values.rtake size ↔ ∃ j, ∃ hj : j < values.length, values.length - size ≤ j ∧
      values[j] = v := by
  rw [List.rtake, List.mem_iff_getElem]
  constructor
  · rintro ⟨i, hi, rfl⟩
    rw [List.length_drop] at hi
    exact ⟨values.length - size + i, by omega, by omega, by rw [List.getElem_drop]⟩
  · rintro ⟨j, hj, hlow, rfl⟩
    refine ⟨j - (values.length - size), by rw [List.length_drop]; omega, ?_⟩
    rw [List.getElem_drop]
    congr 1
    omega

variable [Mul K] [LE K] [DecidableLE K] (size : Nat) (η : K)

/-- The replies to a series of entries, each a value with the word whether it is satisfactory, and
the window after them. -/
def enter : List K → List (K × Bool) → List Bool × List K
  | values, [] => ([], values)
  | values, (c, satisfied) :: entries =>
    let (stagnates, values) := push size η values c satisfied
    let (replies, values) := enter values entries
    (stagnates :: replies, values)

def Stagnates (earlier : List K) (c : K) (satisfied : Bool) : Prop :=
  0 < size ∧ size ≤ earlier.length ∧ satisfied = false ∧ ∀ v ∈ earlier.rtake size, η * v ≤ c

/-- A window that holds the last values goes on to do so, whatever it replies. -/
theorem push_rtake (earlier : List K) (c : K) (satisfied : Bool) :
    ((push size η (earlier.rtake size) c satisfied).1 = true ↔
      Stagnates size η earlier c satisfied) ∧
      (push size η (earlier.rtake size) c satisfied).2 = (earlier ++ [c]).rtake size := by
  have hlength : (earlier.rtake size).length = min size earlier.length := by
    simp [List.rtake]
    omega
  unfold push Stagnates
  split
  case isTrue hzero => simp [hzero, List.rtake]
  case isFalse hpos =>
    split
    case isTrue hfilling =>
      have hshort : earlier.length < size := by omega
      refine ⟨by simp; omega, ?_⟩
      simp only [List.rtake, List.length_append, List.length_singleton]
      rw [Nat.sub_eq_zero_of_le hshort.le, Nat.sub_eq_zero_of_le hshort, List.drop_zero,
        List.drop_zero]
    case isFalse hfull =>
      have hlong : size ≤ earlier.length := by omega
      refine ⟨?_, ?_⟩
      · simp only [Bool.and_eq_true, Bool.not_eq_true', List.all_eq_true, decide_eq_true_eq]
        exact ⟨fun ⟨hs, hall⟩ => ⟨Nat.pos_of_ne_zero hpos, hlong, hs, hall⟩,
          fun ⟨_, _, hs, hall⟩ => ⟨hs, hall⟩⟩
      · simp only [List.rtake, List.length_append, List.length_singleton, List.tail_drop]
        rw [List.drop_append_of_le_length (by omega)]
        congr 2
        omega

/-- A series of entries after the values `earlier`. -/
theorem enter_rtake (earlier : List K) (entries : List (K × Bool)) :
    (enter size η (earlier.rtake size) entries).2 = (earlier ++ entries.map Prod.fst).rtake size ∧
      ∀ k (hk : k < entries.length), (enter size η (earlier.rtake size) entries).1[k]? = some true ↔
        Stagnates size η (earlier ++ (entries.map Prod.fst).take k) entries[k].1 entries[k].2 := by
  induction entries generalizing earlier with
  | nil => simp [enter]
  | cons e entries ih =>
    obtain ⟨c, satisfied⟩ := e
    obtain ⟨hreply, hwindow⟩ := push_rtake size η earlier c satisfied
    obtain ⟨hlast, hreplies⟩ := ih (earlier ++ [c])
    simp only [enter, hwindow]
    refine ⟨by simpa using hlast, fun k hk => ?_⟩
    cases k with
    | zero => simpa using hreply
    | succ k => simpa using hreplies k (by simpa using hk)

/-- The reply to an entry of a fresh window, by the entries before it. -/
theorem enter_nil (entries : List (K × Bool)) (k : Nat) (hk : k < entries.length) :
    (enter size η [] entries).1[k]? = some true ↔ 0 < size ∧ size ≤ k ∧ entries[k].2 = false ∧
      ∀ j (_ : j < k), k - size ≤ j → η * entries[j].1 ≤ entries[k].1 := by
  have hfresh : ([] : List K).rtake size = [] := by simp
  have hlength : ((entries.map Prod.fst).take k).length = k := by
    simp
    omega
  have hreply := (enter_rtake size η [] entries).2 k hk
  rw [hfresh, List.nil_append] at hreply
  rw [hreply, Stagnates, hlength]
  refine and_congr_right fun _ => and_congr_right fun _ => and_congr_right fun _ => ?_
  constructor
  · intro h j hj hlow
    refine h _ (mem_rtake_iff.mpr ⟨j, by omega, by omega, ?_⟩)
    simp
  · intro h v hv
    obtain ⟨j, hj, hlow, rfl⟩ := mem_rtake_iff.mp hv
    rw [hlength] at hj hlow
    simpa using h j hj hlow

end Window

namespace InnerLoop

section Exit
variable {p : Problem K} [Mul K] [LT K] [LE K] [DecidableLT K] [DecidableLE K] {o : Options K}
  {ρ stepNorm : K} {l l' : InnerLoop p} {st : Option InnerStatus}

/-- The test at the end of an iteration, where the window holds the last of the values `earlier`. -/
theorem exit_stagnates {earlier : List K} (h : l.exit o ρ stepNorm = (st, l'))
    (hwindow : ρ < o.maxPenalty → l.window = earlier.rtake o.window) :
    (st = some .penaltyIncrease → ρ < o.maxPenalty ∧
      Window.Stagnates o.window o.eta earlier l.complementarity
      (l.complementarity ≤ o.complementarityTol)) ∧
    (st = none → ρ < o.maxPenalty →
      l'.window = (earlier ++ [l.complementarity]).rtake o.window) := by
  unfold exit at h
  split at h
  case isTrue =>
    cases h
    exact ⟨nofun, nofun⟩
  case isFalse =>
    split at h
    case isTrue hρ =>
      obtain ⟨hreply, hmoves⟩ := Window.push_rtake o.window o.eta earlier l.complementarity
        (l.complementarity ≤ o.complementarityTol)
      rw [hwindow hρ] at h
      generalize Window.push o.window o.eta (earlier.rtake o.window) l.complementarity _ =
        pushed at h hreply hmoves
      obtain ⟨_ | _, window⟩ := pushed
      · cases h
        exact ⟨nofun, fun _ _ => hmoves⟩
      · cases h
        exact ⟨fun _ => ⟨hρ, hreply.mp rfl⟩, nofun⟩
    case isFalse hmax =>
      cases h
      exact ⟨nofun, fun _ hρ => absurd hρ hmax⟩

end Exit

variable {p : Problem K} [Zero K] [One K] [Add K] [Sub K] [Neg K] [Mul K] [Div K] [LT K] [LE K]
  [DecidableLT K] [DecidableLE K] [OfScientific K] [Special K] [BEq K] {host : Host K σ}
  {o : Options K} {sub : Subproblem p} {ρ : K}

/-- The complementarity residuals after the iterations of a loop that complete. -/
def readings (host : Host K σ) (o : Options K) (sub : Subproblem p) (ρ : K) (left : Nat)
    (l : InnerLoop p) (pr : Progress K σ) : List K :=
  (trail host o sub ρ left l pr).tail.map p.complementarity

variable (host o sub ρ)

theorem length_readings (left : Nat) (l : InnerLoop p) (pr : Progress K σ) :
    l.iterations + (readings host o sub ρ left l pr).length =
      (loop host o sub ρ left l pr).1.iterations := by
  have hpoints := (trail_ends host o sub ρ left l pr).1
  have hhead := trail_head host o sub ρ left l pr
  cases htrail : trail host o sub ρ left l pr with
  | nil => simp [htrail] at hhead
  | cons x points =>
    rw [htrail, List.length_cons] at hpoints
    rw [readings, htrail, List.tail_cons, List.length_map]
    omega

variable {host o sub ρ} in
theorem readings_of_none {left : Nat} {l l' : InnerLoop p} {pr pr' : Progress K σ}
    (h : l.iterate host o sub ρ pr = (none, l', pr')) :
    readings host o sub ρ (left + 1) l pr =
      l'.complementarity :: readings host o sub ρ left l' pr' := by
  have hhead := trail_head host o sub ρ left l' pr'
  rw [readings, trail, h]
  dsimp only
  rw [readings, List.tail_cons]
  obtain ⟨total, a, window, rfl⟩ := landed_of_none h
  cases htrail : trail host o sub ρ left { l.landed o ρ total a with window } pr' with
  | nil => simp [htrail] at hhead
  | cons x points =>
    rw [htrail, List.head?_cons, Option.some.injEq] at hhead
    rw [hhead]
    rfl

/-- The last reading of a loop that asks for a larger penalty stagnates after the others. -/
theorem stagnates_of_penaltyIncrease (left : Nat) (l : InnerLoop p) (pr : Progress K σ)
    (earlier : List K) (hwindow : ρ < o.maxPenalty → l.window = earlier.rtake o.window)
    (hst : (loop host o sub ρ left l pr).1.status = .penaltyIncrease) :
    ρ < o.maxPenalty ∧ ∃ before, let c := (loop host o sub ρ left l pr).1.complementarity
      earlier ++ readings host o sub ρ left l pr = before ++ [c] ∧
        Window.Stagnates o.window o.eta before c (c ≤ o.complementarityTol) := by
  fun_induction loop host o sub ρ left l pr generalizing earlier with
  | case1 left l pr st l' pr' h =>
    cases hst
    cases iterate_outcome h with
    | stepped check solve report exit =>
      obtain ⟨hρ, hstag⟩ := (exit_stagnates exit hwindow).1 rfl
      obtain ⟨window, rfl⟩ := exit_loop exit
      refine ⟨hρ, earlier, ?_, hstag⟩
      rw [readings, trail, h]
      rfl
  | case2 l pr l' pr' h => cases hst
  | case3 l pr l₁ pr₁ h left ih =>
    rw [readings_of_none h, List.append_cons]
    refine ih (earlier ++ [l₁.complementarity]) (fun hρ => ?_) hst
    cases iterate_outcome h with
    | stepped check solve report exit =>
      obtain ⟨window, hl₁⟩ := exit_loop exit
      rw [(exit_stagnates exit hwindow).2 rfl hρ, hl₁]

section Run
variable {host o sub ρ} {it : Iterate p} {pr pr' : Progress K σ} {r : InnerResult p}

theorem readings_of_penaltyIncrease (h : run host o sub ρ it pr = (r, pr'))
    (hst : r.status = .penaltyIncrease) :
    let cs := readings host o sub ρ (o.maxInner - 1) (start p ρ it) pr
    ρ < o.maxPenalty ∧ cs.length = r.iterations ∧ ∃ before, cs = before ++ [r.complementarity] ∧
      Window.Stagnates o.window o.eta before r.complementarity
      (r.complementarity ≤ o.complementarityTol) := by
  have hr : (loop host o sub ρ (o.maxInner - 1) (start p ρ it) pr).1 = r := congrArg Prod.fst h
  have hlength := length_readings host o sub ρ (o.maxInner - 1) (start p ρ it) pr
  have hfresh : (start p ρ it).window = ([] : List K).rtake o.window := by simp [start]
  obtain ⟨hρ, before, hsplit, hstag⟩ :=
    stagnates_of_penaltyIncrease host o sub ρ (o.maxInner - 1) (start p ρ it) pr []
      (fun _ => hfresh)
      (by rw [hr, hst])
  rw [hr] at hlength hsplit hstag
  exact ⟨hρ, by simpa [start] using hlength, before, by simpa using hsplit, hstag⟩

end Run

/-- An entry of a fresh window stagnates if the window is in use and full, the entry is not
satisfactory, and it is at least `η` times each of the values in the window, which are the last ones
entered, whatever the replies to them. So an inner loop that asks for a larger penalty is below the
largest one, has not brought the pair's residual down to its tolerance (valid options have one that
the residual compares with, and it is above), has iterated at least once more than the window is
long, and ends at a residual of at least `o.eta` times each of the `o.window` residuals before. -/
theorem stagnation_test [Comparable K] (it : Iterate p) (pr : Progress K σ) :
    (∀ (size : Nat) (η : K) (entries : List (K × Bool)),
      let (replies, values) := Window.enter size η [] entries
      values = (entries.map Prod.fst).rtake size ∧
      ∀ k (hk : k < entries.length), replies[k]? = some true ↔
        0 < size ∧ size ≤ k ∧ entries[k].2 = false ∧
          ∀ j (_ : j < k), k - size ≤ j → η * entries[j].1 ≤ entries[k].1) ∧
    ∀ o : Options K,
      let r := (run host o sub ρ it pr).1
      let cs := readings host o sub ρ (o.maxInner - 1) (start p ρ it) pr
      r.status = .penaltyIncrease →
        ρ < o.maxPenalty ∧ ¬r.complementarity ≤ o.complementarityTol ∧
        (o.validate = .ok () → o.complementarityTol < r.complementarity) ∧
        o.window + 1 ≤ r.iterations ∧
        cs.length = r.iterations ∧ cs.getLast? = some r.complementarity ∧ 0 < o.window ∧
        ∀ j (hj : j < cs.length - 1), cs.length - 1 - o.window ≤ j →
        o.eta * cs[j] ≤ r.complementarity := by
  refine ⟨fun size η entries => ⟨?_, Window.enter_nil size η entries⟩, fun o => ?_⟩
  · have hfresh : ([] : List K).rtake size = [] := by simp
    have hlast := (Window.enter_rtake size η [] entries).1
    rwa [hfresh] at hlast
  · intro r cs hst
    obtain ⟨hρ, hlength, before, hsplit, hpos, hfull, hunsatisfied, hall⟩ :=
      readings_of_penaltyIncrease (Prod.mk.eta.symm : run host o sub ρ it pr = _) hst
    change cs.length = r.iterations at hlength
    change cs = before ++ [r.complementarity] at hsplit
    have hbefore : cs.length = before.length + 1 := by simp [hsplit]
    have hbound (j : Nat) (hj : j < before.length) (hlow : before.length - o.window ≤ j) :
        o.eta * before[j] ≤ r.complementarity :=
      hall _ (Window.mem_rtake_iff.mpr ⟨j, hj, hlow, rfl⟩)
    have habove : ¬r.complementarity ≤ o.complementarityTol := of_decide_eq_false hunsatisfied
    refine ⟨hρ, habove, fun ho => ?_, by omega, hlength, by simp [hsplit], hpos,
      fun j hj hlow => ?_⟩
    · -- the residual compares with one before, and the tolerance with zero
      exact Comparable.lt_of_not_le (hbound (before.length - o.window) (by omega) (Nat.le_refl _))
        (Options.validate_eq_ok_iff.mp ho).complementarityTol.1 habove
    · have hj' : j < before.length := by omega
      have hread : cs[j] = before[j] := by
        simp only [hsplit]
        exact List.getElem_append_left hj'
      rw [hread]
      exact hbound j hj' (by omega)

/-- Answers that lead away from the pair. -/
def climbing : Host ℚ Nat :=
  .answering ([1 / 8, 1 / 4, 3 / 8, 1 / 2].map fun t => some ⟨#[t, t / 2], #[0, 0], .solved, 1⟩)

/-- A satisfactory entry among three equal ones, and a level that climbs from the origin. -/
theorem stagnation_test_climbing :
    (Window.enter 2 (1 / 2 : ℚ) [] [(1, false), (1, true), (1, false)]).1[2]? = some true ∧
    let r := (run climbing Options.default ⟨0⟩ 1 (⟨Vec.zero _, Vec.zero _⟩ : Iterate Problem.warmUp)
      (.start climbing 0)).1
    Options.default.validate (K := ℚ) = .ok () ∧ r.status = .penaltyIncrease ∧
      Options.default.complementarityTol < r.complementarity ∧ 4 ≤ r.iterations := by
  have ho := Options.validate_eq_ok_iff.mpr (Options.valid_default (K := ℚ) fun _ => rfl)
  obtain ⟨hwindow, hloop⟩ :=
    stagnation_test climbing ⟨0⟩ 1 (⟨Vec.zero _, Vec.zero _⟩ : Iterate Problem.warmUp)
    (.start climbing 0)
  have hst : (run climbing Options.default ⟨0⟩ 1 (⟨Vec.zero _, Vec.zero _⟩ : Iterate Problem.warmUp)
      (.start climbing 0)).1.status = .penaltyIncrease := by decide +kernel
  obtain ⟨-, -, hfar, hcount, -⟩ := hloop Options.default hst
  exact ⟨((hwindow 2 (1 / 2) [(1, false), (1, true), (1, false)]).2 2 (by decide)).mpr
    (by decide +kernel), ho, hst, hfar ho, hcount⟩

end InnerLoop

end ComplementarityQP
