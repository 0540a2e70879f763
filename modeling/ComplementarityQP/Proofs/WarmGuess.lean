import ComplementarityQP.Proofs.ColdSolve
import Mathlib.Tactic.Positivity

/-! The point to which a hint leads the dense solver. Main statement: the tests that it passes make
it optimal up to their tolerances, and the solution if they are passed exactly. -/
namespace ComplementarityQP
open Matrix

variable {K : Type} {m n : Nat}

theorem guard_eq_some {p : Prop} [Decidable p] {u : Unit} :
    (guard p : Option Unit) = some u ↔ p := by
  unfold guard
  split <;> simp_all

theorem Vec.join_split {p : Nat} (v : Vec K (n + p)) :
    Vec.join (Vector.ofFn fun i => v.get (i.castAdd p)) (Vector.ofFn fun j => v.get (j.natAdd n)) =
      v := by
  apply Vec.ext_get
  intro i
  refine Fin.addCases (fun i => ?_) (fun j => ?_) i
  · simp
  · simp

def Engine.SolvesLinear [Zero K] [Add K] [Mul K] (e : Engine K) : Prop :=
  ∀ p (M : Mat K p p) b v, e.linear M b = some v → M.mulVec v = b

theorem Engine.solvesLinear_rational : Engine.rational.SolvesLinear :=
  fun _ _ _ _ => Mat.mulVec_of_solve?

/-- `0 < dᵀ P d` except at zero. -/
def Mat.Definite [Zero K] [Add K] [Mul K] [LT K] (P : Mat K n n) : Prop :=
  ∀ d, d ≠ Vec.zero n → 0 < d.dot (P.mulVec d)

/-- No equality is wider than `w`. -/
def Rows.Width [Zero K] [Neg K] [Sub K] [LT K] [LE K] [DecidableLT K] [DecidableLE K]
    [OfScientific K] (r : Rows K m n) (w : K) : Prop :=
  ∀ i, r.isEquality equalityTol i = true → ∀ l u, r.lower.get i = .at l → r.upper.get i = .at u →
    u - l ≤ w

theorem Rows.width_equalityTol [Field K] [LinearOrder K] [IsStrictOrderedRing K] (r : Rows K m n) :
    r.Width equalityTol := by
  intro i hi l u hl hu
  obtain ⟨l', u', hl', hu', hclose⟩ := isEquality_iff.mp hi
  obtain rfl : l' = l := Bound.at.inj (hl'.symm.trans hl)
  obtain rfl : u' = u := Bound.at.inj (hu'.symm.trans hu)
  exact (le_abs_self _).trans hclose

namespace Qp

/-- No multiplier of a guessed row has the wrong sign by more than `tol`. Equalities may have either
sign. -/
def SignsWithin [Zero K] [Sub K] [Neg K] [LT K] [LE K] [DecidableLT K] [DecidableLE K]
    [OfScientific K] (qp : Qp K n m) (tol : K) (guessed y : Vec K m) : Prop :=
  ∀ i b, qp.rows.isEquality Rows.equalityTol i = false → qp.guessRow i (guessed.get i) = some b →
    (0 < guessed.get i → -tol ≤ y.get i) ∧ (guessed.get i < 0 → y.get i ≤ tol)

/-- What the tests of the point of a guess say: that the optimality conditions hold within
tolerances. -/
structure Tested [Zero K] [One K] [Add K] [Sub K] [Neg K] [Mul K] [LT K] [LE K] [DecidableLT K]
    [DecidableLE K] [OfScientific K] (qp : Qp K n m) (guessed : Vec K m) (x : Vec K n)
      (y : Vec K m) : Prop where
  residual : (qp.residual x y).norm ≤ 1e-10 * (1 + (qp.cost.hess.mulVec x).norm + qp.cost.lin.norm)
  idle (i : Fin m) : qp.guessRow i (guessed.get i) = none → y.get i = 0
  feasible : qp.rows.violation x ≤ feasibilityTol * (1 + x.norm)
  signs : qp.SignsWithin (feasibilityTol * (1 + y.norm)) guessed y

structure Accepted [Zero K] [One K] [Add K] [Sub K] [Neg K] [Mul K] [LT K] [LE K] [DecidableLT K]
    [DecidableLE K] [OfScientific K] (qp : Qp K n m) (guessed : Vec K m) (x : Vec K n)
      (y : Vec K m) : Prop
    extends qp.Tested guessed x y where
  stationary : qp.cost.gradient x = qp.rows.coeff.transposeMulVec y
  attained (i : Fin m) (b : K) : qp.guessRow i (guessed.get i) = some b →
    (qp.rows.coeff.mulVec x).get i = b

section System
variable [Field K]

theorem get_spread {active : List (Fin m × K)} (h : (active.map Prod.fst).Nodup)
    (v : Vec K active.length) (i : Fin m) :
    (spread active v).get i = ∑ k, if (active.get k).1 = i then v.get k else 0 := by
  refine (Vec.get_foldl_put_zip h v (fun _ _ => Vec.get_zero _) i).trans ?_
  rw [Vec.get_zero, zero_add]

variable {qp : Qp K n m}

/-- A solution of the system of a guess balances the gradient, and is at the bounds of the guess. -/
theorem solves_activeSystem {active : List (Fin m × K)} (hnodup : (active.map Prod.fst).Nodup)
    {x : Vec K n} {v : Vec K active.length}
    (h : (qp.activeSystem active).mulVec (x.join v) = qp.activeRhs active) :
    qp.cost.gradient x = qp.rows.coeff.transposeMulVec (spread active v) ∧
      ∀ k, (qp.rows.coeff.mulVec x).get (active.get k).1 = (active.get k).2 := by
  constructor
  · apply Vec.ext_get
    intro j
    rw [get_transposeMulVec_of_sum _ (get_spread hnodup v)]
    have hj := congrArg (fun w => Vector.get w (j.castAdd active.length)) h
    simp only [activeSystem, activeRhs, Mat.mulVec, sum_eq_sum, Fin.sum_univ_add, Vec.get_ofFn,
      Mat.get_ofFn, Fin.addCases_left, Fin.addCases_right, Vec.get_join_castAdd,
      Vec.get_join_natAdd, Vec.get_neg, Pi.neg_apply, neg_mul, Finset.sum_neg_distrib] at hj
    simp only [Quadratic.gradient, Vec.get_add, Pi.add_apply, Mat.mulVec, sum_eq_sum, Vec.get_ofFn]
    simp only [mul_comm (v.get _)]
    linear_combination hj
  · intro k
    have hk := congrArg (fun w => Vector.get w (k.natAdd n)) h
    simpa [activeSystem, activeRhs, Mat.mulVec, sum_eq_sum, Fin.sum_univ_add] using hk

variable [LinearOrder K]

theorem mem_guess {guessed : Vec K m} {i : Fin m} {b : K} :
    (i, b) ∈ qp.guess guessed ↔ qp.guessRow i (guessed.get i) = some b := by
  simp [guess]

theorem nodup_guess (guessed : Vec K m) : ((qp.guess guessed).map Prod.fst).Nodup := by
  rw [guess, List.map_filterMap]
  refine List.Nodup.filterMap (fun i i' j hj hj' => ?_) (List.nodup_finRange m)
  simp only [Option.map_map, Option.mem_def, Option.map_eq_some_iff, Function.comp_apply] at hj hj'
  obtain ⟨-, -, rfl⟩ := hj
  obtain ⟨-, -, rfl⟩ := hj'
  rfl

theorem signs_of_kept {tol g v : K} {i : Fin m} (hi : qp.rows.isEquality Rows.equalityTol i = false)
    (h : qp.signKept tol i g v = true) : (0 < g → -tol ≤ v) ∧ (g < 0 → v ≤ tol) := by
  rw [signKept, hi, Bool.false_or] at h
  split at h
  · rename_i hpos
    exact ⟨fun _ => by simpa using h, fun hneg => absurd hneg hpos.not_gt⟩
  · rename_i hpos
    exact ⟨fun hpos' => absurd hpos' hpos, fun _ => by simpa using h⟩

section Hint
variable [Special K] {e : Engine K} {hint : Hint K} {a : Answer K n m}

theorem hot_eq_some (h : qp.hot e hint = some a) :
    ∃ guessed v, Vec.ofArray? m hint.y = some guessed ∧
      e.linear (qp.activeSystem (qp.guess guessed)) (qp.activeRhs (qp.guess guessed)) =
        some (a.x.join v) ∧
      a.y = spread (qp.guess guessed) v ∧ qp.Tested guessed a.x a.y := by
  unfold hot at h
  simp only [bind, Option.bind_eq_some_iff, guard_eq_some, pure, Option.some.injEq, exists_and_left,
    exists_const] at h
  obtain ⟨guessed, hguessed, -, sol, hsol, -, hsigns, hfeasible, hresidual, rfl⟩ := h
  refine ⟨guessed, _, hguessed, hsol.trans (congrArg some (Vec.join_split sol).symm), rfl, ?_,
    fun i hi => ?_, ?_, fun i b hi hb => ?_⟩
  · simpa using hresidual
  · dsimp only
    rw [get_spread (qp.nodup_guess guessed)]
    refine Finset.sum_eq_zero fun k _ => if_neg ?_
    rintro rfl
    have hmem := mem_guess.mp (List.get_mem (qp.guess guessed) k)
    rw [hi] at hmem
    cases hmem
  · simpa using hfeasible
  · exact signs_of_kept hi (List.all_eq_true.mp hsigns _ (mem_guess.mpr hb))

/-- If linear systems are solved exactly, no tolerance is needed for the gradient and the guessed
rows. -/
theorem accepted_of_hot (hlinear : e.SolvesLinear) (h : qp.hot e hint = some a) :
    ∃ guessed, Vec.ofArray? m hint.y = some guessed ∧ qp.Accepted guessed a.x a.y := by
  obtain ⟨guessed, v, hguessed, hsol, hy, htested⟩ := hot_eq_some h
  obtain ⟨hstationary, hattained⟩ :=
    solves_activeSystem (qp.nodup_guess guessed) (hlinear _ _ _ _ hsol)
  rw [← hy] at hstationary
  refine ⟨guessed, hguessed, htested, hstationary, fun i b hb => ?_⟩
  obtain ⟨k, hk⟩ := List.mem_iff_get.mp (mem_guess.mpr hb)
  have hk' := hattained k
  rwa [hk] at hk'

end Hint

theorem guessRow_of_equality {i : Fin m} {l : K} (g : K)
    (hi : qp.rows.isEquality Rows.equalityTol i = true) (hl : qp.rows.lower.get i = .at l) :
    qp.guessRow i g = some l := by
  rw [guessRow, if_pos hi, hl]
  rfl

/-- A guess for a row that is no equality is a bound on the side that the guessed multiplier points
to. -/
theorem guessRow_cases {i : Fin m} {g b : K} (hi : qp.rows.isEquality Rows.equalityTol i = false)
    (h : qp.guessRow i g = some b) :
    0 < g ∧ qp.rows.lower.get i = .at b ∨ g < 0 ∧ qp.rows.upper.get i = .at b := by
  unfold guessRow at h
  rw [if_neg (by simp [hi])] at h
  split at h
  · rename_i hlower
    simp only [Bool.and_eq_true, decide_eq_true_eq] at hlower
    refine .inl ⟨hlower.1, ?_⟩
    cases hl : qp.rows.lower.get i <;> simp_all [Bound.value?]
  · split at h
    · rename_i hupper
      simp only [Bool.and_eq_true, decide_eq_true_eq] at hupper
      refine .inr ⟨hupper.1, ?_⟩
      cases hu : qp.rows.upper.get i <;> simp_all [Bound.value?]
    · cases h

end System

section Optimality
variable [Field K] [LinearOrder K] [IsStrictOrderedRing K] {qp : Qp K n m} {guessed y : Vec K m}
  {x z : Vec K n}

def distance (qp : Qp K n m) (guessed : Vec K m) (z : Vec K n) (i : Fin m) : K :=
  (qp.guessRow i (guessed.get i)).elim 0 fun b => |(qp.rows.coeff.mulVec z).get i - b|

/-- What row `i` can gain on the way to a feasible point: by a wrong sign, or by the width of an
equality. -/
theorem Accepted.neg_le_mul (h : qp.Accepted guessed x y) {tol width : K}
    (hsigns : qp.SignsWithin tol guessed y) (hwidth : qp.rows.Width width) (hz : qp.rows.Holds z)
    (i : Fin m) :
    -(if qp.rows.isEquality Rows.equalityTol i then width * |y.get i| else tol *
      qp.distance guessed z i) ≤
      y.get i * ((qp.rows.coeff.mulVec z).get i - (qp.rows.coeff.mulVec x).get i) := by
  obtain ⟨hlower, hupper⟩ := hz i
  cases hi : qp.rows.isEquality Rows.equalityTol i with
  | true =>
    obtain ⟨l, u, hl, hu, -⟩ := Rows.isEquality_iff.mp hi
    have hgap := sub_nonneg.mpr (hlower l hl)
    have hgap' : (qp.rows.coeff.mulVec z).get i - l ≤ width :=
      (sub_le_sub_right (hupper u hu) l).trans (hwidth i hi l u hl hu)
    rw [h.attained i l (guessRow_of_equality _ hi hl), if_pos rfl]
    refine neg_le_of_abs_le ?_
    rw [abs_mul, abs_of_nonneg hgap, mul_comm]
    exact mul_le_mul_of_nonneg_right hgap' (abs_nonneg _)
  | false =>
    rw [if_neg (by simp)]
    cases hguess : qp.guessRow i (guessed.get i) with
    | none => simp [distance, hguess, h.idle i hguess]
    | some b =>
      rw [distance, hguess, Option.elim_some, h.attained i b hguess]
      obtain ⟨hnonneg, hnonpos⟩ := hsigns i b hi hguess
      obtain ⟨hpos, hl⟩ | ⟨hneg, hu⟩ := guessRow_cases hi hguess
      · have hgap := sub_nonneg.mpr (hlower b hl)
        rw [abs_of_nonneg hgap, ← neg_mul]
        exact mul_le_mul_of_nonneg_right (hnonneg hpos) hgap
      · have hgap := sub_nonpos.mpr (hupper b hu)
        rw [abs_of_nonpos hgap, mul_neg, neg_neg]
        exact mul_le_mul_of_nonpos_right (hnonpos hneg) hgap

/-- No feasible point is better than an accepted one by more than the guessed rows can gain. -/
theorem Accepted.value_le (h : qp.Accepted guessed x y) (hsymm : qp.cost.hess.toMatrix.IsSymm)
    {tol width : K} (hsigns : qp.SignsWithin tol guessed y) (hwidth : qp.rows.Width width)
    (hz : qp.rows.Holds z) :
    qp.cost.value x + (z - x).dot (qp.cost.hess.mulVec (z - x)) / 2 ≤ qp.cost.value z +
      (tol * ∑ i with qp.rows.isEquality Rows.equalityTol i = false, qp.distance guessed z i +
        width * ∑ i with qp.rows.isEquality Rows.equalityTol i = true, |y.get i|) := by
  have hslope : (z - x).dot (qp.cost.gradient x) =
      ∑ i, y.get i * ((qp.rows.coeff.mulVec z).get i - (qp.rows.coeff.mulVec x).get i) := by
    rw [h.stationary, Mat.dot_transposeMulVec, Vec.dot, sum_eq_sum]
    exact Finset.sum_congr rfl fun i _ => by rw [Mat.get_mulVec_sub]
  have hsum := Finset.sum_le_sum fun i (_ : i ∈ Finset.univ) => h.neg_le_mul hsigns hwidth hz i
  rw [← hslope, Finset.sum_neg_distrib, Finset.sum_ite, ← Finset.mul_sum, ← Finset.mul_sum] at hsum
  simp only [Bool.not_eq_true] at hsum
  rw [qp.cost.value_eq hsymm x z]
  linarith

/-- A feasible point satisfies the faces of the rows if the equalities are at their lower bounds
there. -/
theorem holdsWithin_of_planes (hx : qp.rows.Holds x)
    (hplanes : ∀ i, qp.rows.isEquality Rows.equalityTol i = true →
      qp.rows.lower.get i = .at
    ((qp.rows.coeff.mulVec x).get i)) : (qp.splitBy qp.rows.parts).HoldsWithin 0 x := by
  rw [holdsWithin_splitBy]
  rintro ⟨i, side⟩ hf
  obtain ⟨hface, -⟩ := Rows.mem_faces.mp hf
  cases side with
  | equality => simp [Rows.FaceHolds, Rows.sideBound, hplanes i hface, Bound.value?]
  | lower => exact Rows.faceHolds_of_holds hface hx
  | upper => exact Rows.faceHolds_of_holds hface hx

theorem Accepted.planes (h : qp.Accepted guessed x y) (i : Fin m)
    (hi : qp.rows.isEquality Rows.equalityTol i = true) :
    qp.rows.lower.get i = .at ((qp.rows.coeff.mulVec x).get i) := by
  obtain ⟨l, u, hl, -⟩ := Rows.isEquality_iff.mp hi
  rw [h.attained i l (guessRow_of_equality _ hi hl), hl]

section Exact
variable (h : qp.Accepted guessed x y) (hsymm : qp.cost.hess.toMatrix.IsSymm)
  (hdefinite : qp.cost.hess.Definite) (hwidth : qp.rows.Width 0)
  (hsigns : qp.SignsWithin 0 guessed y)
include h hsymm hdefinite hwidth hsigns

theorem Accepted.value_lt (hz : qp.rows.Holds z) (hne : z ≠ x) :
    qp.cost.value x < qp.cost.value z := by
  have hle := h.value_le hsymm hsigns hwidth hz
  have hpos := hdefinite (z - x) fun hzero => hne (Vec.sub_eq_zero_iff.mp hzero)
  simp only [zero_mul, add_zero] at hle
  linarith

/-- The solution that the dual method finds without the hint is the accepted point. -/
theorem Accepted.eq_cold [Special K] {e : Engine K} (hvalid : qp.validate = .ok ())
    (hanswers : e.Answers qp) (hx : qp.rows.Holds x) (hsolved : (qp.cold e).status = .solved) :
    (qp.cold e).x = x := by
  obtain ⟨s, hsplit, hs, hcold, -⟩ := cold_of_solved hsolved
  obtain ⟨hholds, w, hbalanced, -⟩ := hanswers _ s hsplit hs
  have hkeeps : qp.rows.Holds s.x := fun i => by
    cases hi : qp.rows.vanishes i with
    | true =>
      -- The splitting has left the row out, but it has the same value at both points.
      have hi' := hx i
      rwa [Rows.get_mulVec_of_vanishes hi] at hi' ⊢
    | false => exact keeps_of_holdsWithin hvalid hholds hi
  have hle : qp.cost.value s.x + (x - s.x).dot (qp.cost.hess.mulVec (x - s.x)) / 2 ≤
      qp.cost.value x :=
    hbalanced.value_le hsymm hholds (holdsWithin_of_planes hx h.planes)
  rw [hcold]
  by_contra hne
  have hlt := h.value_lt hsymm hdefinite hwidth hsigns hkeeps hne
  have hpos := hdefinite (x - s.x) fun hzero => hne (Vec.sub_eq_zero_iff.mp hzero).symm
  linarith

end Exact

/-- An answer to a hint satisfies the optimality conditions up to the tolerances of its tests, so
that no feasible point is better by more than these let the guessed rows gain. If the Hessian is
positive definite and the tolerances are not used, it is the only minimum, and what is found without
the hint. -/
theorem hot_is_optimal [Special K] {e : Engine K} {hint : Hint K} {a : Answer K n m}
    (hvalid : qp.validate = .ok ()) (hsymm : qp.cost.hess.toMatrix.IsSymm)
    (hconvex : ∀ d : Vec K n, 0 ≤ d.dot (qp.cost.hess.mulVec d)) (hlinear : e.SolvesLinear)
    (h : qp.hot e hint = some a) :
    ∃ guessed, Vec.ofArray? m hint.y = some guessed ∧ qp.Accepted guessed a.x a.y ∧
      (∀ z, qp.rows.Holds z → qp.objective a.x ≤ qp.objective z +
        (feasibilityTol * (1 + a.y.norm) *
            ∑ i with qp.rows.isEquality Rows.equalityTol i = false, qp.distance guessed z i +
          Rows.equalityTol * ∑ i with qp.rows.isEquality Rows.equalityTol i = true, |a.y.get i|)) ∧
      (qp.cost.hess.Definite →
        (∀ i l u, qp.rows.lower.get i = .at l → qp.rows.upper.get i = .at u →
          ¬(0 < u - l ∧ u - l ≤ Rows.equalityTol)) →
        qp.rows.Holds a.x → qp.SignsWithin 0 guessed a.y →
        (∀ z, qp.rows.Holds z → z ≠ a.x → qp.objective a.x < qp.objective z) ∧
        ∀ e' : Engine K, e'.Answers qp → (qp.cold e').status = .solved → (qp.cold e').x = a.x) := by
  obtain ⟨guessed, hguessed, haccepted⟩ := accepted_of_hot hlinear h
  refine ⟨guessed, hguessed, haccepted, fun z hz => ?_, fun hdefinite hthin hx hsigns => ?_⟩
  · exact (le_add_of_nonneg_right (div_nonneg (hconvex (z - a.x)) zero_le_two)).trans
      (haccepted.value_le hsymm haccepted.signs qp.rows.width_equalityTol hz)
  · have hwidth : qp.rows.Width 0 := fun i hi l u hl hu => by
      by_contra hwide
      exact hthin i l u hl hu ⟨lt_of_not_ge hwide, qp.rows.width_equalityTol i hi l u hl hu⟩
    exact ⟨fun z hz hne => haccepted.value_lt hsymm hdefinite hwidth hsigns hz hne,
      fun e' hanswers hsolved =>
        haccepted.eq_cold hsymm hdefinite hwidth hsigns hvalid hanswers hx hsolved⟩

end Optimality

theorem definite_tilted : tilted.cost.hess.Definite := by
  intro d hd
  have hvalue : Vec.dot d (tilted.cost.hess.mulVec d) = d.get 0 ^ 2 + d.get 1 ^ 2 := by
    simp [Vec.dot_eq_dotProduct, Mat.get_mulVec, Matrix.mulVec, dotProduct, tilted,
      Fin.sum_univ_succ]
    ring
  rw [hvalue]
  by_contra hle
  have hsquares := (add_eq_zero_iff_of_nonneg (sq_nonneg (d.get 0)) (sq_nonneg (d.get 1))).mp
    (le_antisymm (not_lt.mp hle) (by positivity))
  refine hd (Vec.ext_get (Fin.forall_fin_two.mpr ⟨?_, ?_⟩))
  · rw [Vec.get_zero, pow_eq_zero_iff two_ne_zero |>.mp hsquares.1]
  · rw [Vec.get_zero, pow_eq_zero_iff two_ne_zero |>.mp hsquares.2]

/-- A hint that only has the upper bound of `x` right leads to the solution. -/
theorem hot_is_optimal_tilted :
    ∃ a, tilted.hot .rational ⟨#[], #[0, -1, 0, 0]⟩ = some a ∧ a.x = #v[2, 1] ∧
      tilted.cost.gradient a.x = tilted.rows.coeff.transposeMulVec a.y ∧
      (∀ z, tilted.rows.Holds z → z ≠ a.x → tilted.objective a.x < tilted.objective z) ∧
      (tilted.cold .rational).x = a.x := by
  have hanswer : (tilted.hot .rational ⟨#[], #[0, -1, 0, 0]⟩).map (fun a => (a.x, a.y)) =
      some (#v[2, 1], #v[0, -9, 1, 0]) := by decide +kernel
  obtain ⟨a, ha, hxy⟩ := Option.map_eq_some_iff.mp hanswer
  obtain ⟨hx, hy⟩ := Prod.mk.inj hxy
  have hsymm : tilted.cost.hess.toMatrix.IsSymm := by
    ext i j
    simp [tilted, eq_comm]
  have hconvex : ∀ d : Vec ℚ 2, 0 ≤ d.dot (tilted.cost.hess.mulVec d) := fun d => by
    by_cases hd : d = Vec.zero 2
    · subst hd
      decide +kernel
    · exact (definite_tilted d hd).le
  obtain ⟨guessed, hguessed, haccepted, -, hexact⟩ :=
    hot_is_optimal (e := .rational) rfl hsymm hconvex Engine.solvesLinear_rational ha
  obtain rfl : guessed = #v[0, -1, 0, 0] := Option.some.inj (hguessed.symm.trans rfl)
  have hthin : ∀ i, ∀ l ∈ (tilted.rows.lower.get i).value?, ∀ u ∈ (tilted.rows.upper.get i).value?,
      ¬(0 < u - l ∧ u - l ≤ Rows.equalityTol) := by decide +kernel
  have hkeeps : tilted.rows.Holds a.x := by
    rw [hx]
    decide +kernel
  have hsigns : ∀ i : Fin 4,
    (0 < (#v[0, -1, 0, 0] : Vec ℚ 4).get i → -0 ≤ (#v[0, -9, 1, 0] : Vec ℚ 4).get i) ∧
      ((#v[0, -1, 0, 0] : Vec ℚ 4).get i < 0 →
      (#v[0, -9, 1, 0] : Vec ℚ 4).get i ≤ 0) := by decide +kernel
  obtain ⟨hminimal, hcold⟩ := hexact definite_tilted
    (fun i l u hl hu => hthin i l (by rw [hl]; rfl) u (by rw [hu]; rfl)) hkeeps (fun i b _ _ => by
      rw [hy]
      exact hsigns i)
  exact ⟨a, ha, hx, haccepted.stationary, hminimal,
    hcold .rational answers_tilted (by decide +kernel)⟩

end Qp

end ComplementarityQP
