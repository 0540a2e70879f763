import ComplementarityQP.Proofs.Descent
import ComplementarityQP.Proofs.Faces
import ComplementarityQP.Proofs.Multipliers

/-! Multipliers of faces folded into one for each row. Main statement: if the faces balance the
gradient at a point, so do the rows, with every multiplier on the side of its bound. -/
namespace ComplementarityQP
open Matrix

variable {K : Type} {m n k : Nat}

theorem sum_zip_toList {α : Type} [AddCommMonoid K] (l : List α) (v : Vec K l.length)
    (g : α × K → K) :
    ((l.zip v.toList).map g).sum = ∑ k, g (l.get k, v.get k) := by
  have hzip : (l.zip v.toList).map g = List.ofFn fun k => g (l.get k, v.get k) := by
    apply List.ext_getElem
    · simp
    · intro i hi _
      simp [Vec.get_eq_getElem]
  rw [hzip, List.sum_ofFn]

namespace Vec

theorem get_put (y : Vec K n) (i : Fin n) (v : K) (j : Fin n) :
    (y.put i v).get j = if j = i then v else y.get j := by
  simp [put]

variable {α : Type} [AddCommMonoid K] {key : α → Fin n}

/-- Entries written over zeros, each in a place of its own, are added. -/
theorem get_foldl_put {entries : List (α × K)} (hnodup : (entries.map fun f => key f.1).Nodup)
    {y : Vec K n} (hzero : ∀ f ∈ entries, y.get (key f.1) = 0) (i : Fin n) :
    (entries.foldl (fun y f => y.put (key f.1) f.2) y).get i =
      y.get i + (entries.map fun f => if key f.1 = i then f.2 else 0).sum := by
  induction entries generalizing y with
  | nil => simp
  | cons f entries ih =>
    obtain ⟨hfresh, hnodup⟩ := List.nodup_cons.mp hnodup
    obtain ⟨hf, hzero⟩ := List.forall_mem_cons.mp hzero
    have hother (g) (hg : g ∈ entries) : key g.1 ≠ key f.1 :=
      fun heq => hfresh (List.mem_map.mpr ⟨g, hg, heq⟩)
    rw [List.foldl_cons,
      ih hnodup fun g hg => by rw [get_put, if_neg (hother g hg), hzero g hg],
      get_put, List.map_cons, List.sum_cons]
    by_cases hi : key f.1 = i
    · rw [if_pos hi.symm, if_pos hi, ← hi, hf, zero_add]
    · rw [if_neg (Ne.symm hi), if_neg hi, zero_add]

theorem get_foldl_put_zip {l : List α} (hnodup : (l.map key).Nodup) (v : Vec K l.length)
    {y : Vec K n} (hzero : ∀ a ∈ l, y.get (key a) = 0) (i : Fin n) :
    ((l.zip v.toList).foldl (fun y f => y.put (key f.1) f.2) y).get i =
      y.get i + ∑ k, if key (l.get k) = i then v.get k else 0 := by
  have hkeys : (l.zip v.toList).map (fun f => key f.1) = l.map key := by
    have hfst : (l.zip v.toList).map Prod.fst = l := List.map_fst_zip (by simp)
    conv_rhs => rw [← hfst, List.map_map]
    rfl
  rw [get_foldl_put (hkeys ▸ hnodup) fun f hf => hzero _ (List.of_mem_zip hf).1, sum_zip_toList]

end Vec

/-- The gradient is balanced by the constraints at `x`. Multipliers of half-spaces are non-negative,
and zero where there is slack. -/
structure SplitQp.Balanced [Zero K] [Add K] [Sub K] [Mul K] [LE K] (prog : SplitQp K n k)
    (x : Vec K n) (z : Vec K k) :
    Prop where
  stationary : prog.cost.gradient x + prog.normals.transposeMulVec z = Vec.zero n
  nonneg (i : Fin k) : prog.equalities ≤ i.val → 0 ≤ z.get i
  slack (i : Fin k) : prog.equalities ≤ i.val →
    z.get i * (prog.rhs.get i - (prog.normals.mulVec x).get i) = 0

section Minimum
variable [Field K] [LinearOrder K] {prog : SplitQp K n k} {x z : Vec K n} {w : Vec K k}

theorem SplitQp.Balanced.gradient_eq (h : prog.Balanced x w) :
    prog.cost.gradient x = -prog.normals.transposeMulVec w := by
  apply Vec.ext_get
  intro j
  have hj := congrArg (fun v : Vec K n => v.get j) h.stationary
  simp only [Vec.get_add, Pi.add_apply, Vec.get_zero] at hj
  rw [Vec.get_neg, Pi.neg_apply]
  exact eq_neg_of_add_eq_zero_left hj

variable [IsStrictOrderedRing K]

theorem Quadratic.value_eq {q : Quadratic K n} (hq : q.hess.toMatrix.IsSymm) (x z : Vec K n) :
    q.value z =
      q.value x + (z - x).dot (q.gradient x) + (z - x).dot (q.hess.mulVec (z - x)) / 2 := by
  have hshift := q.value_shift hq x (z - x) 1
  rw [Vec.shift_one_sub] at hshift
  rw [hshift]
  ring

/-- No other point of the constraints has a smaller value than one at which the gradient is
balanced. -/
theorem SplitQp.Balanced.value_le (h : prog.Balanced x w) (hsymm : prog.cost.hess.toMatrix.IsSymm)
    (hx : prog.HoldsWithin 0 x) (hz : prog.HoldsWithin 0 z) :
    prog.cost.value x + (z - x).dot (prog.cost.hess.mulVec (z - x)) / 2 ≤ prog.cost.value z := by
  have hterm (i : Fin k) : w.get i * (prog.normals.mulVec (z - x)).get i ≤ 0 := by
    rw [Mat.get_mulVec_sub]
    obtain ⟨hplanex, hsidex⟩ := hx i
    obtain ⟨hplanez, hsidez⟩ := hz i
    rcases lt_or_ge i.val prog.equalities with hi | hi
    · have hzero := (magnitude_eq_abs _).symm.trans_le (hplanex hi)
      have hzero' := (magnitude_eq_abs _).symm.trans_le (hplanez hi)
      rw [abs_nonpos_iff, sub_eq_zero] at hzero hzero'
      rw [hzero, hzero', sub_self, mul_zero]
    · have hslack := h.slack i hi
      have hdown := mul_nonneg (h.nonneg i hi) (sub_nonneg.mpr (hsidez hi))
      linarith
  have hdot : 0 ≤ (z - x).dot (prog.cost.gradient x) := by
    rw [h.gradient_eq, Vec.dot_eq_dotProduct, Vec.get_neg, dotProduct_neg, ← Vec.dot_eq_dotProduct,
      Mat.dot_transposeMulVec, Vec.dot, sum_eq_sum]
    exact neg_nonneg.mpr (Finset.sum_nonpos fun i _ => hterm i)
  rw [prog.cost.value_eq hsymm x z]
  linarith

end Minimum

/-- `P x + q = Aᵀ y`. Equalities apart, a multiplier is positive only at the lower and negative only
at the upper bound of its row. -/
structure Qp.Supported [Zero K] [Add K] [Sub K] [Neg K] [Mul K] [LT K] [LE K] [DecidableLT K]
    [DecidableLE K] [OfScientific K] (qp : Qp K n m) (x : Vec K n) (y : Vec K m) : Prop where
  stationary : qp.cost.gradient x = qp.rows.coeff.transposeMulVec y
  atLower (i : Fin m) : qp.rows.isEquality Rows.equalityTol i = false → 0 < y.get i →
    qp.rows.lower.get i = .at ((qp.rows.coeff.mulVec x).get i)
  atUpper (i : Fin m) : qp.rows.isEquality Rows.equalityTol i = false → y.get i < 0 →
    qp.rows.upper.get i = .at ((qp.rows.coeff.mulVec x).get i)

namespace Qp

def foldFaces [Zero K] [Add K] [Sub K] (faces : List (Fin m × RowSide)) (z : Vec K faces.length) :
    Vec K m :=
  Vector.ofFn (foldConic (faces.zip z.toList))

section Fold
variable [Field K] {faces : List (Fin m × RowSide)}

theorem foldConic_eq_sum (sides : List ((Fin m × RowSide) × K)) (i : Fin m) :
    foldConic sides i = (sides.map fun f => if f.1.1 = i then -(f.1.2.sign * f.2) else 0).sum := by
  rw [List.sum_eq_foldl, List.foldl_map]
  refine List.foldl_ext _ _ _ fun s f _ => ?_
  obtain ⟨⟨j, side⟩, v⟩ := f
  by_cases hj : j = i
  · cases side <;> simp [hj, RowSide.sign, sub_eq_add_neg]
  · simp [hj]

theorem get_foldFaces (z : Vec K faces.length) (i : Fin m) :
    (foldFaces faces z).get i =
      ∑ k, if (faces.get k).1 = i then -((faces.get k).2.sign * z.get k) else 0 := by
  rw [foldFaces, Vec.get_ofFn, foldConic_eq_sum, sum_zip_toList]

/-- Multipliers of rows that are sums over keys weigh the rows of the keys. -/
theorem get_transposeMulVec_of_sum {p : Nat} (A : Mat K m n) {y : Vec K m} {key : Fin p → Fin m}
    {c : Fin p → K} (hy : ∀ i, y.get i = ∑ k, if key k = i then c k else 0) (j : Fin n) :
    (A.transposeMulVec y).get j = ∑ k, c k * A (key k) j := by
  simp only [Mat.transposeMulVec, Vec.get_ofFn, sum_eq_sum, hy, Finset.mul_sum]
  rw [Finset.sum_comm]
  refine Finset.sum_congr rfl fun k _ => ?_
  simp [mul_comm]

theorem transposeMulVec_foldFaces (qp : Qp K n m) (e : Nat) (z : Vec K faces.length) :
    qp.rows.coeff.transposeMulVec (foldFaces faces z) =
      -(qp.onFaces faces e).normals.transposeMulVec z := by
  apply Vec.ext_get
  intro j
  rw [get_transposeMulVec_of_sum _ (get_foldFaces z), Vec.get_neg, Pi.neg_apply]
  simp only [onFaces, Mat.transposeMulVec, Vec.get_ofFn, sum_eq_sum, Mat.get_ofFn,
    ← Finset.sum_neg_distrib]
  exact Finset.sum_congr rfl fun k _ => by ring

variable [LinearOrder K] [IsStrictOrderedRing K]

/-- Where a sum of folded multipliers is not zero, one of the faces is the reason. -/
theorem exists_face_of_pos {z : Vec K faces.length} {i : Fin m} {s : K}
    (h : 0 < s * (foldFaces faces z).get i) :
    ∃ k, (faces.get k).1 = i ∧ 0 < s * -((faces.get k).2.sign * z.get k) := by
  rw [get_foldFaces, Finset.mul_sum] at h
  obtain ⟨k, -, hk⟩ := Finset.exists_lt_of_sum_lt (f := fun _ => (0 : K)) (by simpa using h)
  refine ⟨k, ?_⟩
  split at hk <;> simp_all

section Balance
variable {qp : Qp K n m} {e : Nat} {x : Vec K n} {z : Vec K faces.length} {i : Fin m}

/-- A folded multiplier of the sign of a side comes from the face of that side, which is active
then. -/
theorem attained_of_sign (h : (qp.onFaces faces e).Balanced x z) (hlist : qp.rows.Lists faces e)
    (hi : qp.rows.isEquality Rows.equalityTol i = false) (side : RowSide) (hside : side ≠ .equality)
    (hsign : side.sign * (foldFaces faces z).get i < 0) :
    qp.rows.IsFace (i, side) ∧ qp.rows.sideBound i side = (qp.rows.coeff.mulVec x).get i := by
  obtain ⟨k, hk, hpos⟩ := exists_face_of_pos (s := -side.sign) (z := z) (i := i) (by linarith)
  have hface := hlist.isFace _ (List.get_mem faces k)
  have hplane : (faces.get k).2 ≠ .equality := fun hplane => by
    rw [hface.equality_iff, hk, hi] at hplane
    cases hplane
  have htrailing := (hlist.trailing k).mpr hplane
  have hnonneg := h.nonneg k htrailing
  have hslack := h.slack k htrailing
  rw [get_rhs_onFaces, get_mulVec_onFaces] at hslack
  generalize faces.get k = f at *
  obtain ⟨j, side'⟩ := f
  dsimp only at hk hpos hplane hslack
  subst hk
  -- As the multiplier of the face is not negative, the face lies on the given side.
  have hz : z.get k ≠ 0 := by
    rintro hz
    simp [hz] at hpos
  have hsame : side' = side := by
    cases side <;> cases side' <;> simp [RowSide.sign] at hpos hside hplane ⊢ <;> linarith
  subst hsame
  refine ⟨hface, ?_⟩
  have hgap := (mul_eq_zero.mp hslack).resolve_left hz
  cases side' <;> simp [RowSide.sign] at hgap hside ⊢ <;> linarith

theorem supported_of_balanced (h : (qp.onFaces faces e).Balanced x z)
    (hlist : qp.rows.Lists faces e) :
    qp.Supported x (foldFaces faces z) where
  stationary := by
    rw [transposeMulVec_foldFaces qp e]
    exact h.gradient_eq
  atLower i hi hy := by
    obtain ⟨hface, hbound⟩ :=
      attained_of_sign h hlist hi .lower (by decide) (by simpa [RowSide.sign] using hy)
    obtain ⟨-, l, hl⟩ := hface
    simp only [Rows.sideBound, hl, Bound.value?, Option.getD_some] at hbound
    rw [hl, hbound]
  atUpper i hi hy := by
    obtain ⟨hface, hbound⟩ :=
      attained_of_sign h hlist hi .upper (by decide) (by simpa [RowSide.sign] using hy)
    obtain ⟨-, u, hu⟩ := hface
    simp only [Rows.sideBound, hu, Bound.value?, Option.getD_some] at hbound
    rw [hu, hbound]

end Balance

end Fold

end Qp

end ComplementarityQP
