import ComplementarityQP.Proofs.Representation

/-! The faces of two-sided rows: the planes and half-spaces that a method gets to see. There are two
listings of them. Both consist of the planes of equality rows, followed by the finite sides of the
other rows, and rows of zeros make the only difference. -/
namespace ComplementarityQP

variable {K : Type} {m n k : Nat}

theorem Bound.isFinite_iff {b : Bound K} : b.isFinite = true ↔ ∃ v, b = .at v := by
  cases b <;> simp [isFinite, value?]

namespace Rows

section Listings
variable [Zero K] [Neg K] [Sub K] [LT K] [LE K] [DecidableLT K] [DecidableLE K] [OfScientific K]
  {r : Rows K m n} {i : Fin m} {f : Fin m × RowSide}

/-- The plane of an equality row, or a finite side of another row. -/
def IsFace (r : Rows K m n) : Fin m × RowSide → Prop
  | (i, .equality) => r.isEquality equalityTol i = true
  | (i, .lower) => r.isEquality equalityTol i = false ∧ ∃ l, r.lower.get i = .at l
  | (i, .upper) => r.isEquality equalityTol i = false ∧ ∃ u, r.upper.get i = .at u

/-- Faces of the rows, of which the first `e` are planes and the others half-spaces. -/
structure Lists (r : Rows K m n) (faces : List (Fin m × RowSide)) (e : Nat) : Prop where
  isFace : ∀ f ∈ faces, r.IsFace f
  leading (k : Fin faces.length) : k.val < e ↔ (faces.get k).2 = .equality

theorem IsFace.equality_iff (h : r.IsFace f) :
    f.2 = .equality ↔ r.isEquality equalityTol f.1 = true := by
  obtain ⟨i, side⟩ := f
  cases side with
  | equality => exact iff_of_true rfl h
  | lower => exact iff_of_false nofun (Bool.eq_false_iff.mp h.1)
  | upper => exact iff_of_false nofun (Bool.eq_false_iff.mp h.1)

theorem Lists.trailing {faces : List (Fin m × RowSide)} {e : Nat} (h : r.Lists faces e)
    (k : Fin faces.length) :
    e ≤ k.val ↔ (faces.get k).2 ≠ .equality := by
  rw [← not_lt, h.leading]

def finiteSides (r : Rows K m n) (i : Fin m) : List (Fin m × RowSide) :=
  (if (r.lower.get i).isFinite then [(i, .lower)] else []) ++
    (if (r.upper.get i).isFinite then [(i, .upper)] else [])

theorem mem_finiteSides (hi : r.isEquality equalityTol i = false) :
    f ∈ r.finiteSides i ↔ f.1 = i ∧ r.IsFace f := by
  obtain ⟨j, side⟩ := f
  simp only [finiteSides, List.mem_append, List.mem_ite_nil_right, List.mem_singleton,
    Bound.isFinite_iff]
  cases side <;> grind [IsFace]

def listing (r : Rows K m n) (planes others : List (Fin m)) : List (Fin m × RowSide) :=
  planes.map (fun i => (i, .equality)) ++ others.flatMap r.finiteSides

section Listing
variable {planes others : List (Fin m)} (hplanes : ∀ i ∈ planes, r.isEquality equalityTol i = true)
  (hothers : ∀ i ∈ others, r.isEquality equalityTol i = false)
include hplanes hothers

theorem mem_listing : f ∈ r.listing planes others ↔ r.IsFace f ∧ (f.1 ∈ planes ∨ f.1 ∈ others) := by
  rw [listing, List.mem_append, List.mem_map, List.mem_flatMap]
  constructor
  · rintro (⟨i, hi, rfl⟩ | ⟨i, hi, hf⟩)
    · exact ⟨hplanes i hi, .inl hi⟩
    · obtain ⟨rfl, hface⟩ := (mem_finiteSides (hothers i hi)).mp hf
      exact ⟨hface, .inr hi⟩
  · rintro ⟨hface, hi | hi⟩
    · exact .inl ⟨f.1, hi, Prod.ext rfl (hface.equality_iff.mpr (hplanes _ hi)).symm⟩
    · exact .inr ⟨f.1, hi, (mem_finiteSides (hothers _ hi)).mpr ⟨rfl, hface⟩⟩

theorem lists_listing : r.Lists (r.listing planes others) planes.length where
  isFace f hf := ((mem_listing hplanes hothers).mp hf).1
  leading k := by
    rw [List.get_eq_getElem]
    simp only [listing]
    by_cases hk : k.val < planes.length
    · rw [List.getElem_append_left (by simpa using hk), List.getElem_map]
      exact iff_of_true hk rfl
    · have hlength : k.val - (planes.map fun i => (i, RowSide.equality)).length <
          (others.flatMap r.finiteSides).length := by
        have hlt := k.isLt
        simp only [listing, List.length_append, List.length_map] at hlt ⊢
        omega
      rw [List.getElem_append_right (by simpa using hk)]
      obtain ⟨i, hi, hf⟩ := List.mem_flatMap.mp (List.getElem_mem hlength)
      obtain ⟨rfl, hface⟩ := (mem_finiteSides (hothers i hi)).mp hf
      exact iff_of_false hk fun hplane =>
        Bool.eq_false_iff.mp (hothers _ hi) (hface.equality_iff.mp hplane)

end Listing

theorem lists_conicSides (r : Rows K m n) : r.Lists r.conicSides r.conicEqualities :=
  lists_listing (fun i hi => (List.mem_filter.mp hi).2) fun i hi => by
    simpa using (List.mem_filter.mp hi).2

variable [BEq K]

def vanishes (r : Rows K m n) (i : Fin m) : Bool := (r.coeff.row i).all (· == 0)

/-- Row `i` is zero, and its two ends are the same infinity, which ask for nothing. -/
def Vacant (r : Rows K m n) (i : Fin m) : Prop :=
  r.vanishes i = true ∧ (r.lower.get i).SameInfinity (r.upper.get i)

/-- The bounds of row `i` exclude zero, by more than the tolerance. -/
def excludesZero (r : Rows K m n) (i : Fin m) : Bool :=
  (Bound.at equalityTol).below (r.lower.get i) || (r.upper.get i).below (.at (-equalityTol))

def parts (r : Rows K m n) : Split m where
  equalities := (List.finRange m).filter fun i => !r.vanishes i && r.isEquality equalityTol i
  sides :=
    ((List.finRange m).filter fun i => !r.vanishes i && !r.isEquality equalityTol i).flatMap
      r.finiteSides

theorem foldlM_splitRow {rows : List (Fin m)} {sp sp' : Split m} :
    rows.foldlM r.splitRow sp = some sp' ↔
    (∀ i ∈ rows, r.vanishes i = true → r.excludesZero i = false) ∧
      sp' = ⟨sp.equalities ++ rows.filter (fun i => !r.vanishes i && r.isEquality equalityTol i),
        sp.sides ++ (rows.filter fun i => !r.vanishes i && !r.isEquality equalityTol i).flatMap
          r.finiteSides⟩ := by
  induction rows generalizing sp with
  | nil =>
    simp only [List.foldlM_nil, Option.pure_def, Option.some.injEq, List.not_mem_nil,
      IsEmpty.forall_iff, implies_true, List.filter_nil, List.append_nil, List.flatMap_nil,
      true_and]
    exact eq_comm
  | cons i rows ih =>
    have hstep : r.splitRow sp i = if r.vanishes i then if r.excludesZero i then none else some sp
        else if r.isEquality equalityTol i then some { sp with equalities := sp.equalities ++ [i] }
        else some { sp with sides := sp.sides ++ r.finiteSides i } := by
      simp only [splitRow, finiteSides, List.append_assoc]
      rfl
    rw [List.foldlM_cons, hstep, List.forall_mem_cons]
    cases hvanishes : r.vanishes i with
    | true => cases hexcludes : r.excludesZero i <;> simp [ih, hvanishes]
    | false => cases hequality : r.isEquality equalityTol i <;> simp [ih, hvanishes, hequality]

theorem split_eq_some_iff {sp : Split m} :
    r.split = some sp ↔ (∀ i, r.vanishes i = true → r.excludesZero i = false) ∧ sp = r.parts := by
  rw [split, foldlM_splitRow]
  simp [parts]

theorem split_eq_none_iff :
    r.split = none ↔ ∃ i, r.vanishes i = true ∧ r.excludesZero i = true := by
  rw [← not_iff_not, ← ne_eq, Option.ne_none_iff_exists']
  simp [split_eq_some_iff]

theorem Vacant.split_eq_none (h : r.Vacant i) : r.split = none := by
  obtain ⟨hvanishes, hends⟩ := h
  refine split_eq_none_iff.mpr ⟨i, hvanishes, ?_⟩
  obtain ⟨-, hupper⟩ | ⟨hlower, -⟩ := hends
  · simp [excludesZero, hupper, Bound.below]
  · simp [excludesZero, hlower, Bound.below]

theorem mem_equalities :
    i ∈ r.parts.equalities ↔ r.vanishes i = false ∧ r.isEquality equalityTol i = true := by
  simp [parts]

theorem nodup_equalities (r : Rows K m n) : r.parts.equalities.Nodup :=
  (List.nodup_finRange m).filter _

theorem mem_faces : f ∈ r.parts.faces ↔ r.IsFace f ∧ r.vanishes f.1 = false := by
  refine (mem_listing (fun i hi => ?_) fun i hi => ?_).trans (and_congr_right fun _ => ?_)
  · exact (mem_equalities.mp hi).2
  · simp at hi
    exact hi.2
  · cases h : r.isEquality equalityTol f.1 <;> simp [h, mem_equalities]

theorem lists_faces (r : Rows K m n) : r.Lists r.parts.faces r.parts.equalities.length :=
  lists_listing (fun i hi => (mem_equalities.mp hi).2) fun i hi => by
    simpa using (Bool.and_eq_true_iff.mp (List.mem_filter.mp hi).2).2

/-- Without rows of zeros the two listings are the same. -/
theorem split_eq_conic (h : ∀ i, r.vanishes i = false) :
    ∃ sp, r.split = some sp ∧ sp.faces = r.conicSides ∧
      sp.equalities.length = r.conicEqualities := by
  refine ⟨r.parts, split_eq_some_iff.mpr ⟨fun i hi => ?_, rfl⟩, ?_, ?_⟩
  · cases (h i).symm.trans hi
  · simp only [parts, Split.faces, conicSides, h, Bool.not_false, Bool.true_and]
    rfl
  · simp [parts, conicEqualities, h]

end Listings

end Rows

/-- The half-spaces hold, and the planes within `tol`. -/
def SplitQp.HoldsWithin [Zero K] [Add K] [Sub K] [Neg K] [Mul K] [LT K] [DecidableLT K] [LE K]
    (prog : SplitQp K n k) (tol : K) (x : Vec K n) : Prop :=
  ∀ i : Fin k,
    (i.val < prog.equalities → magnitude ((prog.normals.mulVec x).get i - prog.rhs.get i) ≤ tol) ∧
    (prog.equalities ≤ i.val → (prog.normals.mulVec x).get i ≤ prog.rhs.get i)

instance [Zero K] [Add K] [Sub K] [Neg K] [Mul K] [LT K] [DecidableLT K] [LE K] [DecidableLE K]
    (prog : SplitQp K n k) (tol : K) (x : Vec K n) : Decidable (prog.HoldsWithin tol x) :=
  inferInstanceAs (Decidable (∀ _ : Fin k, _ ∧ _))

def Qp.onFaces [Zero K] [One K] [Neg K] [Mul K] (qp : Qp K n m) (faces : List (Fin m × RowSide))
    (e : Nat) :
    SplitQp K n faces.length where
  cost := qp.cost
  normals := Mat.ofFn fun k j => (faces.get k).2.sign * qp.rows.coeff (faces.get k).1 j
  rhs :=
    Vector.ofFn fun k => (faces.get k).2.sign * qp.rows.sideBound (faces.get k).1 (faces.get k).2
  equalities := e

section Signs
variable [Zero K] [One K] [Neg K] [Mul K] (hone : ∀ v : K, 1 * v = v) (hneg : ∀ v : K, -1 * v = -v)
include hone hneg

theorem Rows.face_coeff (r : Rows K m n) (i : Fin m) (side : RowSide) (j : Fin n) :
    (r.face i side).1.get j = side.sign * r.coeff i j := by
  cases side <;> simp [face, RowSide.sign, Mat.row, hone, hneg]

theorem Rows.face_bound (r : Rows K m n) (i : Fin m) (side : RowSide) :
    (r.face i side).2 = side.sign * r.sideBound i side := by
  cases side <;> simp [face, RowSide.sign, sideBound, hone, hneg]

theorem Qp.splitBy_eq (qp : Qp K n m) (sp : Rows.Split m) :
    qp.splitBy sp = qp.onFaces sp.faces sp.equalities.length := by
  simp only [splitBy, onFaces, Rows.face_coeff hone hneg, Rows.face_bound hone hneg]

end Signs

section Exact
variable [Field K]

section Form
variable (qp : Qp K n m) (faces : List (Fin m × RowSide)) (e : Nat)

theorem Qp.get_mulVec_onFaces (x : Vec K n) (k : Fin faces.length) :
    ((qp.onFaces faces e).normals.mulVec x).get k =
      (faces.get k).2.sign * (qp.rows.coeff.mulVec x).get (faces.get k).1 := by
  simp [onFaces, Mat.mulVec, sum_eq_sum, Finset.mul_sum, mul_assoc]

theorem Qp.get_rhs_onFaces (k : Fin faces.length) : (qp.onFaces faces e).rhs.get k =
    (faces.get k).2.sign * qp.rows.sideBound (faces.get k).1 (faces.get k).2 := Vec.get_ofFn _ k

end Form

variable [LinearOrder K]

theorem Qp.conic_eq (qp : Qp K n m) :
    qp.conic = qp.onFaces qp.rows.conicSides qp.rows.conicEqualities := rfl

namespace Rows
variable {r : Rows K m n} {x : Vec K n} {i : Fin m} {f : Fin m × RowSide}

theorem vanishes_iff : r.vanishes i = true ↔ ∀ j, r.coeff i j = 0 := by
  simp [vanishes, Mat.row, Vector.all_eq_true, Fin.forall_iff]

theorem get_mulVec_of_vanishes (hi : r.vanishes i = true) (x : Vec K n) :
    (r.coeff.mulVec x).get i = 0 := by
  simp [Mat.mulVec, sum_eq_sum, vanishes_iff.mp hi]

def FaceHolds (r : Rows K m n) (tol : K) (x : Vec K n) : Fin m × RowSide → Prop
  | (i, .equality) => |(r.coeff.mulVec x).get i - r.sideBound i .equality| ≤ tol
  | (i, .lower) => r.sideBound i .lower ≤ (r.coeff.mulVec x).get i
  | (i, .upper) => (r.coeff.mulVec x).get i ≤ r.sideBound i .upper

variable [IsStrictOrderedRing K]

theorem isEquality_iff {tol : K} : r.isEquality tol i = true ↔
    ∃ l u, r.lower.get i = .at l ∧ r.upper.get i = .at u ∧ |u - l| ≤ tol := by
  cases hl : r.lower.get i <;> cases hu : r.upper.get i <;>
    simp [isEquality, hl, hu, magnitude_eq_abs]

/-- Where the faces hold, so do all finite bounds of rows that do not vanish. -/
theorem keeps_of_faceHolds (hordered : (r.upper.get i).below (r.lower.get i) = false)
    (hi : r.vanishes i = false) (h : ∀ f ∈ r.parts.faces, r.FaceHolds 0 x f) :
    (r.lower.get i).Keeps (r.upper.get i) ((r.coeff.mulVec x).get i) := by
  cases hequality : r.isEquality equalityTol i with
  | true =>
    obtain ⟨l, u, hl, hu, -⟩ := isEquality_iff.mp hequality
    have hplane := h (i, .equality) (mem_faces.mpr ⟨hequality, hi⟩)
    simp only [FaceHolds, sideBound, hl, Bound.value?, Option.getD_some, abs_nonpos_iff,
      sub_eq_zero] at hplane
    simp only [hl, hu, Bound.below, decide_eq_false_iff_not, not_lt] at hordered
    rw [hl, hu, hplane]
    exact ⟨fun _ h => by cases h; exact le_rfl, fun _ h => by cases h; exact hordered⟩
  | false =>
    refine ⟨fun l hl => ?_, fun u hu => ?_⟩
    · have hside := h (i, .lower) (mem_faces.mpr ⟨⟨hequality, l, hl⟩, hi⟩)
      simpa [FaceHolds, sideBound, hl, Bound.value?] using hside
    · have hside := h (i, .upper) (mem_faces.mpr ⟨⟨hequality, u, hu⟩, hi⟩)
      simpa [FaceHolds, sideBound, hu, Bound.value?] using hside

/-- Where no bound is violated, the faces hold. -/
theorem faceHolds_of_holds (hf : r.IsFace f) (h : r.Holds x) : r.FaceHolds equalityTol x f := by
  obtain ⟨i, side⟩ := f
  obtain ⟨hlower, hupper⟩ := h i
  cases side with
  | equality =>
    obtain ⟨l, u, hl, hu, hclose⟩ := isEquality_iff.mp hf
    have hl' := hlower l hl
    have hu' := hupper u hu
    simp only [FaceHolds, sideBound, hl, Bound.value?, Option.getD_some]
    rw [abs_of_nonneg (sub_nonneg.mpr hl')]
    linarith [le_abs_self (u - l)]
  | lower =>
    obtain ⟨-, l, hl⟩ := hf
    simpa [FaceHolds, sideBound, hl, Bound.value?] using hlower l hl
  | upper =>
    obtain ⟨-, u, hu⟩ := hf
    simpa [FaceHolds, sideBound, hu, Bound.value?] using hupper u hu

end Rows

theorem Qp.holdsWithin_onFaces [IsStrictOrderedRing K] {qp : Qp K n m}
    {faces : List (Fin m × RowSide)} {e : Nat} (h : qp.rows.Lists faces e) {tol : K} {x : Vec K n} :
    (qp.onFaces faces e).HoldsWithin tol x ↔ ∀ f ∈ faces, qp.rows.FaceHolds tol x f := by
  rw [List.forall_mem_iff_get]
  refine forall_congr' fun k => ?_
  rw [get_mulVec_onFaces, get_rhs_onFaces]
  change (k.val < e → _) ∧ (e ≤ k.val → _) ↔ _
  rw [h.leading, h.trailing]
  rcases faces.get k with ⟨i, side⟩
  cases side <;> simp [Rows.FaceHolds, RowSide.sign, magnitude_eq_abs]

theorem Qp.holdsWithin_splitBy [IsStrictOrderedRing K] {qp : Qp K n m} {tol : K} {x : Vec K n} :
    (qp.splitBy qp.rows.parts).HoldsWithin tol x ↔
      ∀ f ∈ qp.rows.parts.faces, qp.rows.FaceHolds tol x f := by
  rw [splitBy_eq one_mul neg_one_mul, holdsWithin_onFaces qp.rows.lists_faces]

end Exact

end ComplementarityQP
