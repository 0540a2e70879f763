import ComplementarityQP.Proofs.Merit
import ComplementarityQP.Proofs.Rows
import Mathlib.Tactic.Positivity

/-! What a certificate proves. Main statement: a certified point whose class is strong is, up to the
tolerances, a minimiser among the points that stay on its side of the pairs. -/
namespace ComplementarityQP
open Matrix

variable {K : Type} [Field K] [LinearOrder K] [IsStrictOrderedRing K]

/-- A move by `v` against the multiplier `y` loses at most the tolerances. -/
def Harmless (statTol tol y v : K) : Prop := -(statTol * |v| + tol * |y|) ≤ y * v

namespace Harmless
variable {statTol tol y v : K}

theorem of_small (htol : 0 ≤ tol) (hy : |y| ≤ statTol) : Harmless statTol tol y v := by
  have hmove : |y| * |v| ≤ statTol * |v| := mul_le_mul_of_nonneg_right hy (abs_nonneg v)
  have hrest : 0 ≤ tol * |y| := mul_nonneg htol (abs_nonneg y)
  have hproduct : -(|y| * |v|) ≤ y * v := abs_mul y v ▸ neg_abs_le (y * v)
  unfold Harmless
  linarith

theorem of_nonneg (hstat : 0 ≤ statTol) (hy : 0 ≤ y) (hv : -tol ≤ v) :
    Harmless statTol tol y v := by
  have hmove : 0 ≤ statTol * |v| := mul_nonneg hstat (abs_nonneg v)
  have hproduct : y * -tol ≤ y * v := mul_le_mul_of_nonneg_left hv hy
  rw [Harmless, abs_of_nonneg hy]
  linarith

omit [IsStrictOrderedRing K] in
theorem neg (h : Harmless statTol tol y v) : Harmless statTol tol (-y) (-v) := by
  simpa only [Harmless, abs_neg, neg_mul_neg] using h

theorem of_nonpos (hstat : 0 ≤ statTol) (hy : y ≤ 0) (hv : v ≤ tol) : Harmless statTol tol y v := by
  have h := of_nonneg hstat (neg_nonneg.mpr hy) (neg_le_neg hv)
  simpa only [neg_neg] using h.neg

theorem mono {tol' : K} (htol : tol ≤ tol') (h : Harmless statTol tol y v) :
    Harmless statTol tol' y v := by
  have hwider : tol * |y| ≤ tol' * |y| := mul_le_mul_of_nonneg_right htol (abs_nonneg y)
  unfold Harmless at h ⊢
  linarith

theorem sum {n : Nat} {y v : Fin n → K} (h : ∀ i, Harmless statTol tol (y i) (v i)) :
    -(statTol * ∑ i, |v i| + tol * ∑ i, |y i|) ≤ ∑ i, y i * v i := by
  have hsum := Finset.sum_le_sum fun i (_ : i ∈ Finset.univ) => h i
  rwa [Finset.sum_neg_distrib, Finset.sum_add_distrib, ← Finset.mul_sum, ← Finset.mul_sum] at hsum

end Harmless

section Scalar
variable [Special K] [Exact K]

omit [Field K] [IsStrictOrderedRing K] in
theorem lesser_eq_min (x y : K) : lesser x y = min x y := by
  rw [lesser, Exact.isNaN, min_def_lt]
  rfl

theorem Bound.far_eq_false_iff {b : Bound K} {v tol : K} :
    b.far v tol = false ↔ ∃ w, b = .at w ∧ |v - w| ≤ tol := by
  cases b with
  | negInf => simp [far, Exact.isFinite]
  | «at» w => simp [far, magnitude_eq_abs]
  | posInf => simp [far, Exact.isFinite]

end Scalar

namespace Problem

section Sides
variable [Special K] [Exact K] {statTol feasTol y : K} {upper : Bound K}

theorem harmless_of_rowCertified {lower : Bound K} {v v' : K} (hstat : 0 ≤ statTol)
    (hfeas : 0 ≤ feasTol) (h : rowCertified lower upper v y statTol feasTol = true)
    (hkeeps : lower.Keeps upper v') :
    Harmless statTol feasTol y (v' - v) := by
  simp only [rowCertified, Bool.and_eq_true, Bool.not_eq_true', Bool.and_eq_false_imp,
    decide_eq_true_eq] at h
  obtain ⟨hpos, hneg⟩ := h
  obtain hy | hy := lt_or_ge statTol y
  · obtain ⟨l, rfl, hl⟩ := Bound.far_eq_false_iff.mp (hpos hy)
    have hclose := (abs_le.mp hl).2
    have hfeasible : l ≤ v' := hkeeps.1 l rfl
    exact .of_nonneg hstat (hstat.trans hy.le) (by linarith)
  · obtain hy' | hy' := lt_or_ge y (-statTol)
    · obtain ⟨u, rfl, hu⟩ := Bound.far_eq_false_iff.mp (hneg hy')
      have hclose := (abs_le.mp hu).1
      have hfeasible : v' ≤ u := hkeeps.2 u rfl
      exact .of_nonpos hstat (by linarith) (by linarith)
    · exact .of_small hfeas (abs_le.mpr ⟨hy', hy⟩)

omit [Special K] [Exact K] in
theorem sideCertified_cases {lower gap : K}
    (h : sideCertified lower upper gap y statTol feasTol = true) :
    gap ≤ feasTol ∨ |y| ≤ statTol ∨ y ≤ statTol ∧ ∃ u, upper = .at u ∧
      u - lower - gap ≤ feasTol := by
  by_cases hlower : gap ≤ feasTol
  · exact .inl hlower
  · refine .inr ?_
    cases upper with
    | negInf => simpa [sideCertified, hlower, Exact.isFinite, magnitude_eq_abs] using h
    | posInf => simpa [sideCertified, hlower, Exact.isFinite, magnitude_eq_abs] using h
    | «at» u =>
      by_cases hupper : u - lower - gap ≤ feasTol
      · refine .inr ⟨?_, u, rfl, hupper⟩
        simpa [sideCertified, hlower, hupper] using h
      · refine .inl ?_
        simpa [sideCertified, hlower, hupper, magnitude_eq_abs] using h

omit [Special K] [Exact K] in
theorem harmless_of_sideCertified {lower gap gap' : K} (hstat : 0 ≤ statTol) (hfeas : 0 ≤ feasTol)
    (h : sideCertified lower upper gap y statTol feasTol = true) (hgap : -feasTol ≤ gap)
    (hlower : gap ≤ feasTol → gap' = 0) (hupper : ∀ u, upper = .at u → lower + gap' ≤ u) :
    Harmless statTol feasTol y (gap' - gap) := by
  obtain hactive | hsmall | ⟨hy, u, rfl, hu⟩ := sideCertified_cases h
  · rw [hlower hactive, zero_sub]
    obtain hy | hy := le_total 0 y
    · exact .of_nonneg hstat hy (neg_le_neg hactive)
    · exact .of_nonpos hstat hy (by linarith)
  · exact .of_small hfeas hsmall
  · obtain hy' | hy' := lt_or_ge y (-statTol)
    · have hfeasible : lower + gap' ≤ u := hupper u rfl
      exact .of_nonpos hstat (by linarith) (by linarith)
    · exact .of_small hfeas (abs_le.mpr ⟨hy', hy⟩)

theorem Allowed.best_eq_strong_iff {r : Option Allowed} :
    best r = .strong ↔ ∃ a, r = some a ∧ a.strong = true := by
  cases r with
  | none => simp [best]
  | some a => cases hs : a.strong <;> cases hm : a.mordukhovich <;> simp [best, hs, hm]

omit [IsStrictOrderedRing K] in
theorem Allowed.strong_of_after {tol yl yr : K} {a a' : Allowed} (h : a.after tol yl yr = some a')
    (hstrong : a'.strong = true) : a.strong = true ∧ 0 ≤ yl ∧ 0 ≤ yr := by
  have hflag : a'.strong = (a.strong && !decide (lesser yl yr < 0)) := by
    simp only [after] at h
    split at h
    · split at h
      · cases h
      · cases h
        rfl
    · cases h
      rfl
  rw [hflag, lesser_eq_min] at hstrong
  simpa using hstrong

omit [IsStrictOrderedRing K] in
theorem strong_of_foldlM {n : Nat} {tol : K} {yl yr : Fin n → K} {seen : List (Fin n)}
    {a a' : Allowed} (h : seen.foldlM (fun a i => a.after tol (yl i) (yr i)) a = some a')
    (hstrong : a'.strong = true) :
    a.strong = true ∧ ∀ i ∈ seen, 0 ≤ yl i ∧ 0 ≤ yr i := by
  induction seen generalizing a with
  | nil =>
    cases h
    exact ⟨hstrong, by simp⟩
  | cons i rest ih =>
    rw [List.foldlM_cons] at h
    obtain ⟨next, hnext, hrest⟩ := Option.bind_eq_some_iff.mp h
    obtain ⟨hflag, hall⟩ := ih hrest
    obtain ⟨ha, hi⟩ := Allowed.strong_of_after hnext hflag
    exact ⟨ha, List.forall_mem_cons.mpr ⟨hi, hall⟩⟩

end Sides

end Problem

namespace Side
variable {q n : Nat} {s : Side K q n} {x z : Vec K n}

omit [LinearOrder K] [IsStrictOrderedRing K] in
theorem get_gap (s : Side K q n) (x : Vec K n) (i : Fin q) :
    (s.gap x).get i = (s.coeff.mulVec x).get i - s.lower.get i := by
  rw [gap, Vec.get_sub, Pi.sub_apply]

theorem gap_nonneg (hz : s.rows.Holds z) (i : Fin q) : 0 ≤ (s.gap z).get i := by
  have hlower := (hz i).1 (s.lower.get i) (by simp [rows])
  rw [get_gap]
  exact sub_nonneg.mpr hlower

theorem neg_le_gap {b : K} (hx : s.rows.Within b x) (i : Fin q) : -b ≤ (s.gap x).get i := by
  have hlower := (hx i).1 (s.lower.get i) (by simp [rows])
  simp only [rows] at hlower
  rw [get_gap]
  linarith

/-- A move from `x` to `z` is harmless to the multiplier `y` of one side: either the pair is
biactive and `y` is not negative, or the side stays at its lower bound if it is there. -/
theorem harmless [Special K] [Exact K] {statTol feasTol compTol y : K} {i : Fin q}
    (hstat : 0 ≤ statTol) (hfeas : 0 ≤ feasTol) (hz : s.rows.Holds z) (hx : s.rows.Within feasTol x)
    (hcert : Problem.sideCertified (s.lower.get i) (s.upper.get i) ((s.gap x).get i) y
      statTol feasTol = true)
    (hpair : (s.gap x).get i ≤ compTol ∧ 0 ≤ y ∨
      ((s.gap x).get i ≤ feasTol → (s.coeff.mulVec z).get i = s.lower.get i)) :
    Harmless statTol (max feasTol compTol) y ((s.coeff.mulVec (z - x)).get i) := by
  have hmove : (s.coeff.mulVec (z - x)).get i = (s.gap z).get i - (s.gap x).get i := by
    rw [Mat.get_mulVec_sub, get_gap, get_gap, sub_sub_sub_cancel_right]
  rw [hmove]
  obtain ⟨hactive, hy⟩ | hbranch := hpair
  · have hfeasible := gap_nonneg hz i
    refine Harmless.mono (le_max_right _ _) (.of_nonneg hstat hy ?_)
    linarith
  · have hupper : ∀ u, s.upper.get i = .at u → s.lower.get i + (s.gap z).get i ≤ u := by
      rw [get_gap, add_sub_cancel]
      exact (hz i).2
    refine Harmless.mono (le_max_left _ _)
      (Problem.harmless_of_sideCertified hstat hfeas hcert (neg_le_gap hx i)
      (fun hlow => ?_) hupper)
    rw [get_gap, hbranch hlow, sub_self]

end Side

namespace Problem
variable {p : Problem K} {o : Options K} {x z : Vec K p.vars} {y : Vec K p.duals}

def Biactive (p : Problem K) (tol : K) (x : Vec K p.vars) (i : Fin p.pairs) : Prop :=
  (p.left.gap x).get i ≤ tol ∧ (p.right.gap x).get i ≤ tol

omit [IsStrictOrderedRing K] in
theorem mem_biactive {tol : K} {i : Fin p.pairs} : i ∈ p.biactive tol x ↔ p.Biactive tol x i := by
  simp [biactive, Biactive]

omit [IsStrictOrderedRing K] in
theorem nonneg_of_strong [Special K] [Exact K] {tol : K} (h : p.classify tol x y = .strong)
    {i : Fin p.pairs} (hi : p.Biactive tol x i) : 0 ≤ leftPart y i ∧ 0 ≤ rightPart y i := by
  obtain ⟨a, hfold, hstrong⟩ := Allowed.best_eq_strong_iff.mp h
  exact (strong_of_foldlM hfold hstrong).2 i (mem_biactive.mpr hi)

/-- How far from a bound a certified point may be. -/
def feasTol (o : Options K) (x : Vec K p.vars) : K := o.stationarityTol * (1 + x.norm)

structure Certificate [Special K] (p : Problem K) (o : Options K) (x : Vec K p.vars)
    (y : Vec K p.duals) : Prop where
  feasible : p.violation x ≤ feasTol o x
  complementary : p.complementarity x ≤ o.complementarityTol
  stationary : (p.residual x y).norm ≤ o.stationarityTol
  general (i) : rowCertified (p.general.lower.get i) (p.general.upper.get i)
    ((p.general.coeff.mulVec x).get i)
    (generalPart y i) o.stationarityTol (feasTol o x) = true
  left (i) : sideCertified (p.left.lower.get i) (p.left.upper.get i) ((p.left.gap x).get i)
    (leftPart y i)
    o.stationarityTol (feasTol o x) = true
  right (i) : sideCertified (p.right.lower.get i) (p.right.upper.get i) ((p.right.gap x).get i)
    (rightPart y i)
    o.stationarityTol (feasTol o x) = true

omit [IsStrictOrderedRing K] in
theorem certificate_of_certified [Special K] (h : p.certified o x y = true) :
    Certificate p o x y := by
  simp only [certified, Bool.and_eq_true, Bool.not_eq_true', decide_eq_false_iff_not, not_lt,
    List.all_eq_true, List.mem_finRange, forall_const] at h
  obtain ⟨⟨⟨⟨hfeasible, hcomplementary⟩, hstationary⟩, hgeneral⟩, hsides⟩ := h
  exact ⟨hfeasible, hcomplementary, hstationary, hgeneral,
    fun i => (hsides i).1, fun i => (hsides i).2⟩

def Convex (p : Problem K) : Prop := ∀ d : Vec K p.vars, 0 ≤ d.dot (p.cost.hess.mulVec d)

theorem Convex.tangent_le (h : p.Convex) (x z : Vec K p.vars) :
    p.objective x + (z - x).dot (p.cost.gradient x) ≤ p.objective z := by
  have hexpand := p.cost.value_shift p.isSymm_cost x (z - x) 1
  rw [Vec.shift_one_sub] at hexpand
  have hcurved := h (z - x)
  unfold objective
  linarith

omit [LinearOrder K] [IsStrictOrderedRing K] in
theorem dot_gradient (d : Vec K p.vars) (y : Vec K p.duals) :
    d.dot (p.cost.gradient x) = d.dot (p.residual x y) + y.dot (p.stacked.coeff.mulVec d) := by
  have hgradient : p.cost.gradient x =
      (p.residual x y).shift 1 (p.stacked.coeff.transposeMulVec y) := by
    apply Vec.ext_get
    intro j
    rw [residual, Vec.get_shift, Vec.get_sub, one_smul, sub_add_cancel]
  rw [hgradient, Vec.dot_shift, Mat.dot_transposeMulVec, one_mul]

theorem Convex.objective_ge (hconvex : p.Convex) {statTol tol : K}
    (hstationary : (p.residual x y).norm ≤ statTol)
    (hrows : ∀ i, Harmless statTol tol (y.get i) ((p.stacked.coeff.mulVec (z - x)).get i)) :
    p.objective x - statTol *
      (∑ j, |z.get j - x.get j| + ∑ i, |(p.stacked.coeff.mulVec (z - x)).get i|) -
      tol * ∑ i, |y.get i| ≤ p.objective z := by
  -- The slope towards `z` is that of the residual plus what the rows and their multipliers make of
  -- the move.
  have htangent := hconvex.tangent_le x z
  have hmoves := Harmless.sum hrows
  have hresidual : -(statTol * ∑ j, |z.get j - x.get j|) ≤ (z - x).dot (p.residual x y) := by
    rw [Vec.dot_eq_dotProduct, dotProduct, Vec.get_sub, Finset.mul_sum, ← Finset.sum_neg_distrib]
    refine Finset.sum_le_sum fun j _ => ?_
    have hj := ((p.residual x y).abs_get_le_norm j).trans hstationary
    have hmove : |z.get j - x.get j| * |(p.residual x y).get j| ≤ |z.get j - x.get j| * statTol :=
      mul_le_mul_of_nonneg_left hj (abs_nonneg _)
    rw [← abs_mul] at hmove
    have hlow := neg_abs_le ((z.get j - x.get j) * (p.residual x y).get j)
    rw [Pi.sub_apply]
    linarith
  rw [dot_gradient _ y, Vec.dot_eq_dotProduct y] at htangent
  unfold dotProduct at htangent
  linarith

omit [LinearOrder K] [IsStrictOrderedRing K] in
theorem stacked_mulVec (p : Problem K) (x : Vec K p.vars) :
    p.stacked.coeff.mulVec x =
      ((p.general.coeff.mulVec x).join (p.left.coeff.mulVec x)).join (p.right.coeff.mulVec x) := by
  change ((p.general.coeff.stack p.left.coeff).stack p.right.coeff).mulVec x = _
  rw [Mat.mulVec_stack, Mat.mulVec_stack]

/-- Outside of the biactive pairs of `x`, the sides that are at their lower bounds at `x` stay there
at `z`. -/
def SameBranch (p : Problem K) (tol feasTol : K) (x z : Vec K p.vars) : Prop :=
  ∀ i, ¬p.Biactive tol x i →
    ((p.left.gap x).get i ≤ feasTol → (p.left.coeff.mulVec z).get i = p.left.lower.get i) ∧
    ((p.right.gap x).get i ≤ feasTol → (p.right.coeff.mulVec z).get i = p.right.lower.get i)

variable [Special K] [Exact K]

/-- Every multiplier is covered: those of general rows by their own test, those of a biactive pair
by the class of the point, and those of the other pairs by the test of their side. -/
theorem Certificate.harmless (h : Certificate p o x y)
    (hstrong : p.classify o.complementarityTol x y = .strong) (hz : p.stacked.Holds z)
    (hbranch : p.SameBranch o.complementarityTol (feasTol o x) x z) (i : Fin p.duals) :
    Harmless o.stationarityTol (max (feasTol o x) o.complementarityTol) (y.get i)
      ((p.stacked.coeff.mulVec (z - x)).get i) := by
  have hstat : 0 ≤ o.stationarityTol := (Vec.norm_nonneg _).trans h.stationary
  have hfeas : 0 ≤ feasTol o x := (p.stacked.violation_nonneg x).trans h.feasible
  obtain ⟨hleftz, hrightz⟩ := Rows.holds_stack.mp hz
  obtain ⟨hgeneralz, hleftz⟩ := Rows.holds_stack.mp hleftz
  obtain ⟨hleftx, hrightx⟩ := Rows.within_stack.mp (p.stacked.violation_le_iff.mp h.feasible).2
  obtain ⟨-, hleftx⟩ := Rows.within_stack.mp hleftx
  rw [stacked_mulVec]
  refine forall_parts (P := fun i => Harmless _ _ (y.get i) (Vector.get _ i)) (fun i => ?_)
    (fun i => ?_) (fun i => ?_) i
  · rw [Vec.get_join_castAdd, Vec.get_join_castAdd, Mat.get_mulVec_sub]
    exact (harmless_of_rowCertified hstat hfeas (h.general i) (hgeneralz i)).mono (le_max_left _ _)
  · rw [Vec.get_join_castAdd, Vec.get_join_natAdd]
    refine Side.harmless hstat hfeas hleftz hleftx (h.left i) ?_
    by_cases hi : p.Biactive o.complementarityTol x i
    · exact .inl ⟨hi.1, (nonneg_of_strong hstrong hi).1⟩
    · exact .inr (hbranch i hi).1
  · rw [Vec.get_join_natAdd]
    refine Side.harmless hstat hfeas hrightz hrightx (h.right i) ?_
    by_cases hi : p.Biactive o.complementarityTol x i
    · exact .inl ⟨hi.2, (nonneg_of_strong hstrong hi).2⟩
    · exact .inr (hbranch i hi).2

/-- A certified point of the strong class minimises the objective, up to the tolerances, over the
feasible points of its branch. -/
theorem certified_strong_minimises (hconvex : p.Convex) (hcert : p.certified o x y = true)
    (hstrong : p.classify o.complementarityTol x y = .strong) (hz : p.stacked.Holds z)
    (hbranch : p.SameBranch o.complementarityTol (o.stationarityTol * (1 + x.norm)) x z) :
    p.objective x
        - o.stationarityTol *
          (∑ j, |z.get j - x.get j| + ∑ i, |(p.stacked.coeff.mulVec (z - x)).get i|)
        - max (o.stationarityTol * (1 + x.norm)) o.complementarityTol * ∑ i, |y.get i| ≤
          p.objective z := by
  have h := certificate_of_certified hcert
  exact hconvex.objective_ge h.stationary (h.harmless hstrong hz hbranch)

/-- Minimise `x² + y² + 2 x + 2 y - 5 t` under `x + t ≥ 1`, `0 ≤ x ⟂ y ≥ 0` and
`0 ≤ t ≤ 1 ⟂ y ≥ 0`. -/
def corner : Problem ℚ where
  vars := 3
  rows := 1
  pairs := 2
  quad := Mat.ofFn fun i j => if i = j ∧ i ≠ 2 then 2 else 0
  lin := #v[2, 2, -5]
  general := ⟨Mat.ofFn fun _ j => if j = 1 then 0 else 1, #v[.at 1], .replicate 1 .posInf⟩
  left := ⟨Mat.ofFn fun i j => if j.val = 2 * i.val then 1 else 0, #v[0, 0], #v[.posInf, .at 1]⟩
  right := ⟨Mat.ofFn fun _ j => if j = 1 then 1 else 0, #v[0, 0], #v[.posInf, .posInf]⟩
  x0 := none
  y0 := none

theorem convex_corner : corner.Convex := by
  intro (d : Vec ℚ 3)
  have hvalue : Vec.dot d (corner.cost.hess.mulVec d) = 2 * d.get 0 ^ 2 + 2 * d.get 1 ^ 2 := by
    simp [Vec.dot_eq_dotProduct, Mat.get_mulVec, Matrix.mulVec, dotProduct, cost, corner,
      Mat.symmetrize, Fin.sum_univ_succ]
    ring
  have hsquares : 0 ≤ 2 * d.get 0 ^ 2 + 2 * d.get 1 ^ 2 := by positivity
  exact hsquares.trans_eq hvalue.symm

/-- At `(0, 0, 1)` the general row and the upper bound of `t` are met, the first pair is biactive
and the second is not; `(½, 0, ½)` is on the same branch. -/
theorem certified_strong_minimises_corner :
    let o : Options ℚ := .default
    let x : Vec ℚ 3 := #v[0, 0, 1]
    let y : Vec ℚ 5 := #v[1, 1, -6, 3, -1]
    let z : Vec ℚ 3 := #v[1 / 2, 0, 1 / 2]
    corner.certified o x y = true ∧ corner.classify o.complementarityTol x y = .strong ∧
      corner.stacked.Holds z ∧
    corner.SameBranch o.complementarityTol (o.stationarityTol * (1 + x.norm)) x z ∧
    corner.objective x
        - o.stationarityTol *
        (∑ j, |z.get j - x.get j| + ∑ i, |(corner.stacked.coeff.mulVec (z - x)).get i|)
        - max (o.stationarityTol * (1 + x.norm)) o.complementarityTol * ∑ i, |y.get i| ≤
        corner.objective z := by
  intro o x y z
  have hcert : corner.certified o x y = true := by decide +kernel
  have hstrong : corner.classify o.complementarityTol x y = .strong := by decide +kernel
  have hz : corner.stacked.Holds z := Rows.violation_eq_zero_iff.mp (by decide +kernel)
  have hbranch : corner.SameBranch o.complementarityTol (o.stationarityTol * (1 + x.norm)) x z := by
    unfold SameBranch Biactive
    decide +kernel
  exact ⟨hcert, hstrong, hz, hbranch,
    certified_strong_minimises convex_corner hcert hstrong hz hbranch⟩

end Problem

end ComplementarityQP
