import ComplementarityQP.Proofs.WarmGuess
import Mathlib.LinearAlgebra.Matrix.Notation

/-! What a hint may change about the verdict of the dense solver. Main statement: a solution found
by a hint is found without it too, unless the Hessian is not positive definite, no point satisfies
the bounds exactly, or a row of zeros between two ends that are the same infinity stops the
splitting. -/
namespace ComplementarityQP

variable {K : Type} {m n : Nat}

theorem exists_status {c : Except (Fault K) (Answer K n m)} {s : QpStatus}
    (h : c.toOption.any (fun a => a.status = s) = true) : ∃ a, c = .ok a ∧ a.status = s := by
  obtain ⟨a, ha, hs⟩ := exists_ok_of_any h
  exact ⟨a, ha, of_decide_eq_true hs⟩

theorem not_exists_ok {ε α : Type} {c : Except ε α} (h : c.toOption.isNone = true) :
    ¬∃ a, c = .ok a := by
  rintro ⟨a, rfl⟩
  cases h

variable [Field K] [LinearOrder K]

/-- The dual method solves the split program exactly if its Hessian is positive definite and its
constraints have a point. -/
def Engine.Decides (e : Engine K) (qp : Qp K n m) : Prop :=
  ∀ sp, qp.rows.split = some sp → ((∃ s, e.dual (qp.splitBy sp) = .ok s) ↔
    qp.cost.hess.Definite ∧ ∃ z, (qp.splitBy sp).HoldsWithin 0 z)

namespace Qp

/-- All bounds that are given hold at `z`, and equalities at their lower one. -/
def HoldsExactly (qp : Qp K n m) (z : Vec K n) : Prop :=
  qp.rows.Holds z ∧ ∀ i, qp.rows.isEquality Rows.equalityTol i = true →
    qp.rows.lower.get i = .at ((qp.rows.coeff.mulVec z).get i)

variable {qp : Qp K n m} {e : Engine K}

section Dense
variable [Special K] {hint : Hint K} {a : Answer K n m}

theorem dense_cold (hvalid : qp.validate = .ok ()) : qp.dense e none = .ok (qp.cold e) := by
  unfold dense
  rw [hvalid]
  rfl

theorem dense_cases (h : qp.dense e (some hint) = .ok a) :
    qp.validate = .ok () ∧ (a = qp.cold e ∨ qp.hot e hint = some a) := by
  unfold dense at h
  simp only [bind_eq_ok] at h
  obtain ⟨_, hvalid, h⟩ := h
  refine ⟨hvalid, ?_⟩
  simp only [Option.bind_some] at h
  split at h
  · rename_i a' ha'
    cases h
    exact .inr ha'
  · cases h
    exact .inl rfl

end Dense

variable [IsStrictOrderedRing K]

omit [IsStrictOrderedRing K] in
theorem definite_of_cold_solved (hdecides : e.Decides qp) (h : (qp.cold e).status = .solved) :
    qp.cost.hess.Definite := by
  obtain ⟨s, hsplit, hs, -⟩ := cold_of_solved h
  exact ((hdecides _ hsplit).mp ⟨s, hs⟩).1

theorem cold_solved_of_holdsExactly
    (hordered : ∀ i, (qp.rows.upper.get i).below (qp.rows.lower.get i) = false)
    (hdecides : e.Decides qp) (hdefinite : qp.cost.hess.Definite) {z : Vec K n}
    (hz : qp.HoldsExactly z) :
    (qp.cold e).status = .solved ∨ ∃ i, qp.rows.Vacant i := by
  obtain ⟨hholds, hplanes⟩ := hz
  cases hsplit : qp.rows.split with
  | none => exact .inr (exists_vacant_of_split hordered hsplit hholds)
  | some sp =>
    obtain ⟨-, rfl⟩ := Rows.split_eq_some_iff.mp hsplit
    obtain ⟨s, hs⟩ := (hdecides _ hsplit).mpr ⟨hdefinite, z, holdsWithin_of_planes hholds hplanes⟩
    refine .inl ?_
    simp only [cold, hsplit, hs]

variable [Special K] {hint : Hint K} {a : Answer K n m}

/-- A solution that is found with a hint is the one that is found without it, or a point that has
passed the tests of a guess. No test looks at the Hessian, and without a hint nothing is found
unless it is positive definite and no row of zeros has two ends that are the same infinity. If it
is, then something is found without the hint too, except where there is such a row or no point
satisfies the bounds exactly: then the tested one violates some, within the tolerance. -/
theorem solved_without_hint (hdecides : e.Decides qp) (h : qp.dense e (some hint) = .ok a)
    (hsolved : a.status = .solved) :
    ∃ b, qp.dense e none = .ok b ∧
      (a = b ∨ ∃ guessed, Vec.ofArray? m hint.y = some guessed ∧ qp.Tested guessed a.x a.y) ∧
      (b.status = .solved → qp.cost.hess.Definite ∧ ∀ i, ¬qp.rows.Vacant i) ∧
      (qp.cost.hess.Definite →
        (b.status = .solved ∨ (∃ i, qp.rows.Vacant i) ∨
          (∀ z, ¬qp.HoldsExactly z) ∧ qp.rows.violation a.x ≤ feasibilityTol * (1 + a.x.norm)) ∧
        (e.SolvesLinear → qp.rows.Holds a.x → b.status = .solved ∨ ∃ i, qp.rows.Vacant i)) := by
  obtain ⟨hvalid, hcases⟩ := dense_cases h
  have hordered := ordered_of_validate hvalid
  refine ⟨qp.cold e, dense_cold hvalid, ?_,
    fun hcold => ⟨definite_of_cold_solved hdecides hcold, fun i hi => ?_⟩, fun hdefinite => ?_⟩
  · refine hcases.imp_right fun hhot => ?_
    obtain ⟨guessed, -, hguessed, -, -, htested⟩ := hot_eq_some hhot
    exact ⟨guessed, hguessed, htested⟩
  · obtain ⟨s, hsplit, -⟩ := cold_of_solved hcold
    cases hi.split_eq_none.symm.trans hsplit
  · obtain rfl | hhot := hcases
    · exact ⟨.inl hsolved, fun _ _ => .inl hsolved⟩
    · obtain ⟨guessed, -, hguessed, -, -, htested⟩ := hot_eq_some hhot
      refine ⟨?_, fun hlinear hx => ?_⟩
      · by_cases hexact : ∃ z, qp.HoldsExactly z
        · obtain ⟨z, hz⟩ := hexact
          exact (cold_solved_of_holdsExactly hordered hdecides hdefinite hz).imp_right .inl
        · exact .inr (.inr ⟨not_exists.mp hexact, htested.feasible⟩)
      · obtain ⟨guessed', -, haccepted⟩ := accepted_of_hot hlinear hhot
        exact cold_solved_of_holdsExactly hordered hdecides hdefinite ⟨hx, haccepted.planes⟩

section Rational

theorem decides_tilted : Engine.rational.Decides tilted := by
  intro sp hsplit
  obtain ⟨-, rfl⟩ := Rows.split_eq_some_iff.mp hsplit
  refine iff_of_true ?_ ⟨definite_tilted, #v[2, 1], by decide +kernel⟩
  have hsolve : (tilted.splitBy tilted.rows.parts).solve.toOption.any (fun _ => true) =
      true := by decide +kernel
  obtain ⟨s, hs, -⟩ := exists_ok_of_any hsolve
  exact ⟨s, hs⟩

theorem solved_without_hint_tilted :
    ∃ a b, tilted.dense .rational (some ⟨#[], #[0, -1, 0, 0]⟩) = .ok a ∧ a.iterations = 0 ∧
      tilted.dense .rational none = .ok b ∧ b.status = .solved := by
  have hhinted : (tilted.dense .rational (some ⟨#[], #[0, -1, 0, 0]⟩)).toOption.any
      (fun a => a.status = .solved ∧ a.iterations = 0 ∧ a.x = #v[2, 1]) = true := by decide +kernel
  obtain ⟨a, ha, htest⟩ := exists_ok_of_any hhinted
  obtain ⟨hsolved, hiterations, hx⟩ := of_decide_eq_true htest
  obtain ⟨b, hb, -, -, hverdict⟩ := solved_without_hint decides_tilted ha hsolved
  have hholds : tilted.rows.Holds #v[2, 1] := by decide +kernel
  have hproper : ¬∃ i, tilted.rows.Vacant i := by
    rintro ⟨i, -, hends⟩
    fin_cases i <;> simp [tilted, Bound.SameInfinity, Vec.get_eq_getElem] at hends
  have hfound :=
    ((hverdict definite_tilted).2 Engine.solvesLinear_rational (hx ▸ hholds)).resolve_right hproper
  exact ⟨a, b, ha, hiterations, hb, hfound⟩

/-- Minimise `½ x² - 3 x` under `x ≤ 1` and `x ≥ 1 + 1e-13`. -/
def narrow : Qp ℚ 1 2 where
  cost := ⟨Mat.ofFn ![![1]], #v[-3]⟩
  rows := ⟨Mat.ofFn ![![1], ![1]], #v[.negInf, .at 1.0000000000001], #v[.at 1, .posInf]⟩

/-- `-½ x²` has no minimum. -/
def concave : Qp ℚ 1 0 where
  cost := ⟨Mat.ofFn ![![-1]], Vec.zero 1⟩
  rows := ⟨Mat.zero 0 1, .replicate 0 .negInf, .replicate 0 .posInf⟩

theorem decides_narrow : Engine.rational.Decides narrow := by
  intro sp hsplit
  obtain ⟨-, rfl⟩ := Rows.split_eq_some_iff.mp hsplit
  have hsolve : (narrow.splitBy narrow.rows.parts).solve.toOption.isNone := by decide +kernel
  refine iff_of_false (not_exists_ok hsolve) ?_
  rintro ⟨-, z, hz⟩
  rw [holdsWithin_splitBy] at hz
  have hupper : (narrow.rows.coeff.mulVec z).get 0 ≤ 1 := hz (0, .upper) (by decide +kernel)
  have hlower : 1.0000000000001 ≤ (narrow.rows.coeff.mulVec z).get 1 :=
    hz (1, .lower) (by decide +kernel)
  have hsame : (narrow.rows.coeff.mulVec z).get 0 = (narrow.rows.coeff.mulVec z).get 1 := by
    simp [narrow, Mat.mulVec]
  rw [hsame] at hupper
  norm_num at hlower
  linarith

theorem not_definite_concave : ¬concave.cost.hess.Definite := by
  intro hdefinite
  have hpos := hdefinite #v[1] (by decide +kernel)
  have hneg : Vec.dot #v[1] (concave.cost.hess.mulVec #v[1]) < 0 := by decide +kernel
  exact lt_asymm hpos hneg

theorem decides_concave : Engine.rational.Decides concave := by
  intro sp hsplit
  obtain ⟨-, rfl⟩ := Rows.split_eq_some_iff.mp hsplit
  have hsolve : (concave.splitBy concave.rows.parts).solve.toOption.isNone := by decide +kernel
  exact iff_of_false (not_exists_ok hsolve) fun h => not_definite_concave h.1

theorem decides_vacant : Engine.rational.Decides vacant := by
  intro sp hsplit
  cases split_vacant.symm.trans hsplit

theorem definite_vacant : vacant.cost.hess.Definite := by
  intro (v : Vec ℚ 1) hv
  have hvalue : v.dot (vacant.cost.hess.mulVec v) = v.get 0 * v.get 0 := by
    simp [Vec.dot_eq_dotProduct, Mat.get_mulVec, Matrix.mulVec, dotProduct, vacant]
  have hne : v.get 0 ≠ 0 := by
    intro hzero
    refine hv (Vec.ext_get fun i => ?_)
    fin_cases i
    simpa using hzero
  rw [hvalue]
  exact mul_self_pos.mpr hne

/-- A maximum is accepted as a solution, as no test looks at the Hessian. So is the solution of a
program that the splitting gives up, though there is nothing to violate, and within its tolerance a
point where nothing is feasible. -/
theorem verdict_depends_on_hint :
    (Engine.rational.Decides concave ∧ ¬concave.cost.hess.Definite ∧
      ∃ a b, concave.dense .rational (some ⟨#[0], #[]⟩) = .ok a ∧
        concave.dense .rational none = .ok b ∧
        a.status = .solved ∧ b.status = .numericalError) ∧
    (Engine.rational.Decides vacant ∧ vacant.cost.hess.Definite ∧ (∀ x, vacant.rows.Holds x) ∧
      ∃ a b, vacant.dense .rational (some ⟨#[], #[0]⟩) = .ok a ∧
        vacant.dense .rational none = .ok b ∧
        a.status = .solved ∧ b.status = .infeasible) ∧
    Engine.rational.Decides narrow ∧
      ∃ a b, narrow.dense .rational (some ⟨#[0], #[-1, 0]⟩) = .ok a ∧
        narrow.dense .rational none = .ok b ∧
        a.status = .solved ∧ b.status = .infeasible := by
  refine ⟨⟨decides_concave, not_definite_concave, ?_⟩,
    ⟨decides_vacant, definite_vacant, holds_vacant, ?_⟩, decides_narrow, ?_⟩
  · obtain ⟨a, ha, hsolved⟩ :=
      exists_status (c := concave.dense .rational (some ⟨#[0], #[]⟩)) (s := .solved)
      (by decide +kernel)
    obtain ⟨b, hb, herror⟩ :=
      exists_status (c := concave.dense .rational none) (s := .numericalError)
      (by decide +kernel)
    exact ⟨a, b, ha, hb, hsolved, herror⟩
  · obtain ⟨a, ha, hsolved⟩ :=
      exists_status (c := vacant.dense .rational (some ⟨#[], #[0]⟩)) (s := .solved)
      (by decide +kernel)
    obtain ⟨b, hb, hinfeasible⟩ :=
      exists_status (c := vacant.dense .rational none) (s := .infeasible)
      (by decide +kernel)
    exact ⟨a, b, ha, hb, hsolved, hinfeasible⟩
  · obtain ⟨a, ha, hsolved⟩ :=
      exists_status (c := narrow.dense .rational (some ⟨#[0], #[-1, 0]⟩)) (s := .solved)
      (by decide +kernel)
    obtain ⟨b, hb, hinfeasible⟩ :=
      exists_status (c := narrow.dense .rational none) (s := .infeasible)
      (by decide +kernel)
    exact ⟨a, b, ha, hb, hsolved, hinfeasible⟩

end Rational

end Qp

end ComplementarityQP
