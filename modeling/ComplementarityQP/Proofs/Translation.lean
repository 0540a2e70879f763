import ComplementarityQP.Proofs.Folding

/-! The two translations of two-sided rows. Main statement: without rows of zeros they are the same
program, and its multipliers fold back into multipliers of the rows. -/
namespace ComplementarityQP

variable {F K : Type} {m n k : Nat}

namespace SplitQp

def constraints (prog : SplitQp K n k) : List (Vec K n × K) :=
  List.ofFn fun i => (prog.normals.row i, prog.rhs.get i)

/-- `A x + s = b` for slacks that are zero on the planes and non-negative on the half-spaces. -/
def HoldsWithSlack [Zero K] [Add K] [Mul K] [LE K] (prog : SplitQp K n k) (x : Vec K n) : Prop :=
  ∃ s : Vec K k, prog.normals.mulVec x + s = prog.rhs ∧
    ∀ i, (i.val < prog.equalities → s.get i = 0) ∧ (prog.equalities ≤ i.val → 0 ≤ s.get i)

theorem holdsWithSlack_iff [Field K] [LinearOrder K] [IsStrictOrderedRing K] {prog : SplitQp K n k}
    {x : Vec K n} :
    prog.HoldsWithSlack x ↔ prog.HoldsWithin 0 x := by
  constructor
  · rintro ⟨s, hs, hsigns⟩ i
    obtain ⟨hplane, hside⟩ := hsigns i
    rw [← hs, Vec.get_add, Pi.add_apply]
    refine ⟨fun hi => ?_, fun hi => ?_⟩
    · rw [hplane hi, add_zero, sub_self, magnitude_eq_abs, abs_zero]
    · exact le_add_of_nonneg_right (hside hi)
  · intro h
    refine ⟨prog.rhs - prog.normals.mulVec x, ?_, fun i => ?_⟩
    · apply Vec.ext_get
      intro i
      rw [Vec.get_add, Vec.get_sub, add_sub_cancel]
    · obtain ⟨hplane, hside⟩ := h i
      rw [Vec.get_sub, Pi.sub_apply]
      refine ⟨fun hi => ?_, fun hi => sub_nonneg.mpr (hside hi)⟩
      have hzero := (magnitude_eq_abs _).symm.trans_le (hplane hi)
      rw [abs_nonpos_iff] at hzero
      rw [← neg_sub, hzero, neg_zero]

end SplitQp

namespace Qp

theorem constraints_onFaces [Zero K] [One K] [Neg K] [Mul K] (qp : Qp K n m)
    (faces : List (Fin m × RowSide)) (e : Nat) :
    (qp.onFaces faces e).constraints = faces.map fun f =>
      (Vector.ofFn fun j => f.2.sign * qp.rows.coeff f.1 j,
        f.2.sign * qp.rows.sideBound f.1 f.2) := by
  rw [← List.ofFn_getElem_eq_map]
  simp [SplitQp.constraints, onFaces]

/-- The program that the sparse solver hands to its method: the conic form, with the entries that it
stores. -/
def stored [Zero K] [One K] [Sub K] [Neg K] [Mul K] [LT K] [LE K] [DecidableLT K] [DecidableLE K]
    [OfScientific K] (qp : Qp K n m) : SplitQp K n qp.rows.conicSides.length :=
  { qp.conic with
    cost := ⟨qp.cost.hess.mirrorUpper.dropSmall, qp.cost.lin⟩
    normals := qp.conic.normals.dropSmall }

theorem sparse_y [Zero K] [One K] [Add K] [Sub K] [Neg K] [Mul K] [Div K] [LT K] [LE K]
    [DecidableLT K] [DecidableLE K] [OfScientific K] [Special K] {qp : Qp K n m}
    {method : ConicMethod K} {a : Answer K n m} (h : qp.sparse method = .ok a) :
    a.y = foldFaces qp.rows.conicSides (method qp.stored).z := by
  unfold sparse at h
  simp only [bind_eq_ok] at h
  obtain ⟨-, -, h⟩ := h
  cases h
  rfl

section Scalars
variable [Zero F] [One F] [Neg F] [Sub F] [Mul F] [LT F] [LE F] [DecidableLT F] [DecidableLE F]
  [BEq F] [OfScientific F]

/-- The splitting `sp` of the rows and the conic form consist of the same faces in the same order,
and have the same constraints. -/
structure SameForm (qp : Qp F n m) (sp : Rows.Split m) : Prop where
  faces : sp.faces = qp.rows.conicSides
  constraints : (qp.splitBy sp).constraints = qp.conic.constraints
  equalities : (qp.splitBy sp).equalities = qp.conic.equalities
  cost : (qp.splitBy sp).cost = qp.conic.cost

theorem exists_sameForm (hone : ∀ v : F, 1 * v = v) (hneg : ∀ v : F, -1 * v = -v) {qp : Qp F n m}
    (h : ∀ i, qp.rows.vanishes i = false) : ∃ sp, qp.rows.split = some sp ∧ qp.SameForm sp := by
  obtain ⟨sp, hsplit, hfaces, hequalities⟩ := Rows.split_eq_conic h
  refine ⟨sp, hsplit, hfaces, ?_, hequalities, rfl⟩
  calc (qp.splitBy sp).constraints
    _ = (qp.onFaces sp.faces sp.equalities.length).constraints := by rw [splitBy_eq hone hneg]
    _ = (qp.onFaces qp.rows.conicSides qp.rows.conicEqualities).constraints := by
      rw [constraints_onFaces, constraints_onFaces, hfaces]

variable [Field K] [LinearOrder K] [IsStrictOrderedRing K] [Special K]

/-- A program without rows of zeros is translated in the same way by both solvers, in all scalars in
which the factors of the sides do what they should, and so the two forms have the same points.
Multipliers of the conic form that balance the gradient become multipliers of the rows that do so,
each on the side of its bound, and this is how the sparse solver makes them. -/
theorem translations_agree (hone : ∀ v : F, 1 * v = v) (hneg : ∀ v : F, -1 * v = -v) :
    (∀ qp : Qp F n m, (∀ i, qp.rows.vanishes i = false) → ∃ sp, qp.rows.split = some sp ∧
      qp.SameForm sp) ∧
    (∀ (qp : Qp K n m) sp, (∀ i, qp.rows.vanishes i = false) → qp.rows.split = some sp →
      ∀ x, qp.conic.HoldsWithSlack x ↔ (qp.splitBy sp).HoldsWithin 0 x) ∧
    (∀ (qp : Qp K n m) x z, qp.conic.Balanced x z →
      qp.Supported x (foldFaces qp.rows.conicSides z)) ∧
    ∀ (qp : Qp K n m) (method : ConicMethod K) a, qp.sparse method = .ok a →
      a.y = foldFaces qp.rows.conicSides (method qp.stored).z := by
  refine ⟨fun qp h => exists_sameForm hone hneg h, ?_, ?_, fun qp method a h => sparse_y h⟩
  · intro qp sp h hsplit x
    obtain ⟨sp', hsplit', same⟩ := exists_sameForm one_mul neg_one_mul h
    obtain rfl : sp' = sp := Option.some.inj (hsplit'.symm.trans hsplit)
    obtain ⟨-, rfl⟩ := Rows.split_eq_some_iff.mp hsplit
    rw [SplitQp.holdsWithSlack_iff, conic_eq, splitBy_eq one_mul neg_one_mul,
      holdsWithin_onFaces qp.rows.lists_conicSides, holdsWithin_onFaces qp.rows.lists_faces,
      same.faces]
  · intro qp x z h
    exact supported_of_balanced h qp.rows.lists_conicSides

end Scalars

/-- Minimise `½ (x² + y²) - 2 x - 3 y` under `x + y = 2`, `1 ≤ x ≤ 3`, `-5 ≤ y` and with `x - y`
free. -/
def mixed : Qp ℚ 2 4 where
  cost := ⟨Mat.ofFn fun i j => if i = j then 1 else 0, #v[-2, -3]⟩
  rows := ⟨Mat.ofFn ![![1, 1], ![1, 0], ![0, 1], ![1, -1]], #v[.at 2, .at 1, .at (-5), .negInf],
    #v[.at 2, .at 3, .posInf, .posInf]⟩

theorem translations_agree_mixed :
    (∃ sp, mixed.rows.split = some sp ∧ mixed.SameForm sp ∧
      (mixed.splitBy sp).HoldsWithin 0 #v[1, 1]) ∧
      mixed.Supported #v[1, 1] #v[-2, 1, 0, 0] := by
  obtain ⟨hforms, hpoints, hmultipliers, -⟩ :=
    translations_agree (F := ℚ) (K := ℚ) (n := 2) (m := 4) one_mul neg_one_mul
  have hrows : ∀ i, mixed.rows.vanishes i = false := by decide +kernel
  constructor
  · obtain ⟨sp, hsplit, same⟩ := hforms mixed hrows
    refine ⟨sp, hsplit, same,
      (hpoints mixed sp hrows hsplit #v[1, 1]).mp ⟨⟨#[0, 0, 2, 6], by decide +kernel⟩, ?_, ?_⟩⟩
    · decide +kernel
    · decide +kernel
  · have hbalanced : mixed.conic.Balanced #v[1, 1] ⟨#[2, 1, 0, 0], by decide +kernel⟩ := by
      refine ⟨?_, ?_, ?_⟩
      · decide +kernel
      · decide +kernel
      · decide +kernel
    have hfold : foldFaces mixed.rows.conicSides ⟨#[2, 1, 0, 0], by decide +kernel⟩ =
        (#v[-2, 1, 0, 0] : Vec ℚ 4) := by
      decide +kernel
    exact hfold ▸ hmultipliers mixed #v[1, 1] _ hbalanced

end Qp

end ComplementarityQP
