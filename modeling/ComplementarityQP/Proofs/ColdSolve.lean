import ComplementarityQP.Proofs.Elimination
import ComplementarityQP.Proofs.Folding

/-! The dense solver without a hint. Main statement: if its methods do what they should, what it
calls a solution satisfies the optimality conditions of the rows, and its splitting of the rows
loses no feasible point. -/
namespace ComplementarityQP
open Matrix

variable {K : Type} {m n k : Nat}

/-- What an answer of the dual method has to be: a point of the constraints, with multipliers of the
half-spaces that balance the gradient together with some multipliers of the planes. -/
structure SplitQp.Answered [Zero K] [Add K] [Sub K] [Neg K] [Mul K] [LT K] [DecidableLT K] [LE K]
    (prog : SplitQp K n k) (s : DualSolution K n k) : Prop where
  holds : prog.HoldsWithin 0 s.x
  balanced : ∃ z, prog.Balanced s.x z ∧ ∀ i, prog.equalities ≤ i.val → z.get i = s.multipliers.get i

def Engine.Answers [Field K] [LinearOrder K] (e : Engine K) (qp : Qp K n m) : Prop :=
  ∀ sp s, qp.rows.split = some sp → e.dual (qp.splitBy sp) = .ok s → (qp.splitBy sp).Answered s

/-- The fit with the columns of `N` solves every system that has a solution. -/
def Engine.Fits [Zero K] [Add K] [Mul K] {p : Nat} (e : Engine K) (N : Mat K n p) : Prop :=
  ∀ c, N.mulVec (e.fit N (N.mulVec c)) = N.mulVec c

theorem sum_get_of_nodup {α : Type} [DecidableEq α] [AddCommMonoid K] {l : List α} (h : l.Nodup)
    (g : α → K) (a : α) :
    (∑ k, if l.get k = a then g (l.get k) else 0) = if a ∈ l then g a else 0 := by
  split
  · rename_i ha
    obtain ⟨k, rfl⟩ := List.mem_iff_get.mp ha
    rw [Finset.sum_eq_single k, if_pos rfl]
    · intro k' _ hk'
      exact if_neg fun heq => hk' (List.nodup_iff_injective_get.mp h heq)
    · simp
  · rename_i ha
    refine Finset.sum_eq_zero fun k _ => if_neg fun heq => ha ?_
    exact heq ▸ List.get_mem l k

namespace Qp

def planeNormals (qp : Qp K n m) (sp : Rows.Split m) : Mat K n sp.equalities.length :=
  Mat.ofFn fun j k => qp.rows.coeff (sp.equalities.get k) j

section Field
variable [Field K] {qp : Qp K n m} {sp : Rows.Split m}

/-- Multipliers that are added in the rows of the planes add a combination of the normals. -/
theorem transposeMulVec_planes {y y' : Vec K m} {c : Vec K sp.equalities.length}
    (h : ∀ i, y'.get i = y.get i + ∑ k, if sp.equalities.get k = i then c.get k else 0) :
    qp.rows.coeff.transposeMulVec y' = qp.rows.coeff.transposeMulVec y +
      (qp.planeNormals sp).mulVec c := by
  have hsum (i : Fin m) : (y' - y).get i = ∑ k, if sp.equalities.get k = i then c.get k else 0 := by
    rw [Vec.get_sub, Pi.sub_apply, h, add_sub_cancel_left]
  apply Vec.ext_get
  intro j
  have hj := get_transposeMulVec_of_sum qp.rows.coeff hsum j
  rw [Mat.get_transposeMulVec, Vec.get_sub, mulVec_sub, Pi.sub_apply, sub_eq_iff_eq_add'] at hj
  rw [Vec.get_add, Pi.add_apply, Mat.get_transposeMulVec, Mat.get_transposeMulVec, hj]
  congr 1
  simp [planeNormals, Mat.mulVec, sum_eq_sum, mul_comm]

variable [LinearOrder K]

/-- The multipliers before those of the planes are fitted. -/
theorem foldSides_eq {r : Rows K m n} {sides : List ((Fin m × RowSide) × K)}
    (h : ∀ f ∈ sides, r.IsFace f.1) (i : Fin m) :
    foldSides sides i = if r.isEquality Rows.equalityTol i then 0 else foldConic sides i := by
  cases hi : r.isEquality Rows.equalityTol i with
  | true =>
    refine (List.foldl_ext _ (fun s _ => s) _ fun s f hf => ?_).trans (List.foldl_fixed _)
    obtain ⟨⟨j, side⟩, v⟩ := f
    by_cases hj : j = i
    · subst hj
      obtain rfl : side = .equality := (h _ hf).equality_iff.mpr hi
      simp
    · simp [hj]
  | false =>
    refine List.foldl_ext _ _ _ fun s f hf => ?_
    have hplane := (h f hf).equality_iff
    obtain ⟨⟨j, side⟩, v⟩ := f
    by_cases hj : j = i
    · subst hj
      cases side <;> simp_all
    · simp [hj]

theorem get_foldFaces_of_vanishes {r : Rows K m n} {z : Vec K r.parts.faces.length} {i : Fin m}
    (hi : r.vanishes i = true) : (foldFaces r.parts.faces z).get i = 0 := by
  rw [get_foldFaces]
  refine Finset.sum_eq_zero fun k _ => if_neg ?_
  rintro rfl
  rw [(Rows.mem_faces.mp (List.get_mem _ k)).2] at hi
  cases hi

section Fit
variable {e : Engine K} {s : DualSolution K n qp.rows.parts.faces.length}

def unfitted (qp : Qp K n m) (s : DualSolution K n qp.rows.parts.faces.length) : Vec K m :=
  Vector.ofFn (foldSides (qp.rows.parts.faces.zip s.multipliers.toList))

theorem get_unfitted {z : Vec K qp.rows.parts.faces.length}
    (hz : ∀ k, qp.rows.parts.equalities.length ≤ k.val → z.get k = s.multipliers.get k)
    (i : Fin m) :
    (qp.unfitted s).get i =
      if qp.rows.isEquality Rows.equalityTol i then 0 else
        (foldFaces qp.rows.parts.faces z).get i := by
  have hlist := qp.rows.lists_faces
  rw [unfitted, Vec.get_ofFn,
    foldSides_eq (r := qp.rows) fun f hf => hlist.isFace _ (List.of_mem_zip hf).1]
  cases hi : qp.rows.isEquality Rows.equalityTol i with
  | true => rfl
  | false =>
    change foldConic _ i = _
    rw [foldConic_eq_sum, sum_zip_toList, get_foldFaces]
    refine Finset.sum_congr rfl fun k _ => ?_
    by_cases hk : (qp.rows.parts.faces.get k).1 = i
    · have hplane : (qp.rows.parts.faces.get k).2 ≠ .equality := fun hplane => by
        rw [(hlist.isFace _ (List.get_mem _ k)).equality_iff, hk, hi] at hplane
        cases hplane
      rw [hz k ((hlist.trailing k).mpr hplane)]
    · rw [if_neg hk, if_neg hk]

theorem get_rowMultipliers (e : Engine K) (i : Fin m) :
    (qp.rowMultipliers e qp.rows.parts s).get i = (qp.unfitted s).get i +
    ∑ k, if qp.rows.parts.equalities.get k = i then
      (e.fit (qp.planeNormals qp.rows.parts) (qp.residual s.x (qp.unfitted s))).get k else 0 := by
  have hnodup : (qp.rows.parts.equalities.map id).Nodup := by
    rw [List.map_id]
    exact qp.rows.nodup_equalities
  have hzero : ∀ i ∈ qp.rows.parts.equalities, (qp.unfitted s).get i = 0 := fun i hi => by
    rw [get_unfitted (z := s.multipliers) fun _ _ => rfl, if_pos (Rows.mem_equalities.mp hi).2]
  refine Eq.trans ?_ (Vec.get_foldl_put_zip hnodup _ hzero i)
  unfold rowMultipliers
  split
  · rename_i hempty
    have hnil : qp.rows.parts.equalities = [] := List.isEmpty_iff.mp hempty
    simp [hnil, unfitted]
  · rfl

theorem get_rowMultipliers_of_not_plane {i : Fin m} (hi : i ∉ qp.rows.parts.equalities) :
    (qp.rowMultipliers e qp.rows.parts s).get i = (qp.unfitted s).get i := by
  rw [get_rowMultipliers, Finset.sum_eq_zero, add_zero]
  intro k _
  refine if_neg ?_
  rintro rfl
  exact hi (List.get_mem _ k)

theorem get_rowMultipliers_of_vanishes {i : Fin m} (hi : qp.rows.vanishes i = true) :
    (qp.rowMultipliers e qp.rows.parts s).get i = 0 := by
  rw [get_rowMultipliers_of_not_plane, get_unfitted (z := s.multipliers) fun _ _ => rfl,
    get_foldFaces_of_vanishes hi, ite_self]
  simp [Rows.mem_equalities, hi]

def onPlanes (sp : Rows.Split m) (y : Vec K m) : Vec K sp.equalities.length :=
  Vector.ofFn fun k => y.get (sp.equalities.get k)

theorem get_foldFaces_eq_unfitted {z : Vec K qp.rows.parts.faces.length}
    (hz : ∀ k, qp.rows.parts.equalities.length ≤ k.val → z.get k = s.multipliers.get k)
    (i : Fin m) :
    (foldFaces qp.rows.parts.faces z).get i = (qp.unfitted s).get i +
      ∑ k, if qp.rows.parts.equalities.get k = i then
        (onPlanes _ (foldFaces qp.rows.parts.faces z)).get k else 0 := by
  simp only [onPlanes, Vec.get_ofFn]
  rw [sum_get_of_nodup qp.rows.nodup_equalities, get_unfitted hz]
  cases hi : qp.rows.isEquality Rows.equalityTol i with
  | true =>
    cases hvanishes : qp.rows.vanishes i with
    | true => simp [get_foldFaces_of_vanishes hvanishes]
    | false => simp [Rows.mem_equalities, hi, hvanishes]
  | false => simp [Rows.mem_equalities, hi]

variable [IsStrictOrderedRing K]

/-- What the half-spaces leave of the gradient is a combination of the normals of the planes, and
the fit finds one. -/
theorem supported_rowMultipliers (hfit : e.Fits (qp.planeNormals qp.rows.parts))
    (hs : (qp.splitBy qp.rows.parts).Answered s) :
    qp.Supported s.x (qp.rowMultipliers e qp.rows.parts s) := by
  obtain ⟨-, z, hbalanced, hz⟩ := hs
  rw [splitBy_eq one_mul neg_one_mul] at hbalanced
  have hfolded := supported_of_balanced hbalanced qp.rows.lists_faces
  have hgradient : qp.cost.gradient s.x = qp.rows.coeff.transposeMulVec (qp.unfitted s) +
      (qp.planeNormals qp.rows.parts).mulVec (onPlanes _ (foldFaces qp.rows.parts.faces z)) := by
    rw [hfolded.stationary, transposeMulVec_planes (get_foldFaces_eq_unfitted hz)]
  have hresidual : qp.residual s.x (qp.unfitted s) =
      (qp.planeNormals qp.rows.parts).mulVec (onPlanes _ (foldFaces qp.rows.parts.faces z)) := by
    apply Vec.ext_get
    intro j
    rw [residual, hgradient, Vec.get_sub, Vec.get_add, add_sub_cancel_left]
  -- The fit writes only to the rows of the planes.
  have hother {i : Fin m} (hi : qp.rows.isEquality Rows.equalityTol i = false) :
      (qp.rowMultipliers e qp.rows.parts s).get i = (foldFaces qp.rows.parts.faces z).get i := by
    rw [get_rowMultipliers_of_not_plane, get_unfitted hz, hi]
    · rfl
    · simp [Rows.mem_equalities, hi]
  refine ⟨?_, fun i hi => ?_, fun i hi => ?_⟩
  · rw [transposeMulVec_planes (get_rowMultipliers e), hresidual, hfit, hgradient]
  · rw [hother hi]
    exact hfolded.atLower i hi
  · rw [hother hi]
    exact hfolded.atUpper i hi

end Fit

theorem cold_of_solved {e : Engine K} (h : (qp.cold e).status = .solved) :
    ∃ s, qp.rows.split = some qp.rows.parts ∧ e.dual (qp.splitBy qp.rows.parts) = .ok s ∧
      (qp.cold e).x = s.x ∧
      (qp.cold e).y = qp.rowMultipliers e qp.rows.parts s := by
  unfold cold at h
  split at h
  · cases h
  · rename_i sp hsplit
    obtain ⟨-, rfl⟩ := Rows.split_eq_some_iff.mp hsplit
    split at h
    · rename_i s hs
      refine ⟨s, hsplit, hs, ?_, ?_⟩
      · simp only [cold, hsplit, hs]
      · simp only [cold, hsplit, hs]
    · cases h
    · cases h

omit [Field K] in
theorem ordered_of_validate [Special K] (h : qp.validate = .ok ()) (i : Fin m) :
    (qp.rows.upper.get i).below (qp.rows.lower.get i) = false := by
  rw [validate_eq_ok, Rows.forall_mem_list] at h
  exact (h i).ordered

variable [IsStrictOrderedRing K]

/-- Where the rows have a point, only a row of zeros between two ends that are the same infinity
stops the splitting. -/
theorem exists_vacant_of_split
    (hordered : ∀ i, (qp.rows.upper.get i).below (qp.rows.lower.get i) = false)
    (h : qp.rows.split = none) {x : Vec K n} (hx : qp.rows.Holds x) : ∃ i, qp.rows.Vacant i := by
  obtain ⟨i, hvanishes, hexcludes⟩ := Rows.split_eq_none_iff.mp h
  refine ⟨i, hvanishes, ?_⟩
  have hzero := (Bound.keeps_iff (hordered i)).mp (hx i)
  rw [Rows.get_mulVec_of_vanishes hvanishes] at hzero
  refine hzero.resolve_left fun ⟨hlower, hupper⟩ => ?_
  have htol : (0 : K) < Rows.equalityTol := by norm_num [Rows.equalityTol]
  rcases Bool.or_eq_true_iff.mp hexcludes with hbelow | hbelow
  · cases hl : qp.rows.lower.get i <;> simp [hl, Bound.IsLower, Bound.below] at hlower hbelow
    linarith
  · cases hu : qp.rows.upper.get i <;> simp [hu, Bound.IsUpper, Bound.below] at hupper hbelow
    linarith

/-- Every point of the rows is one of their planes and half-spaces, up to the width of an
equality. -/
theorem holdsWithin_of_holds {x : Vec K n} (hx : qp.rows.Holds x) :
    (qp.splitBy qp.rows.parts).HoldsWithin Rows.equalityTol x := by
  rw [holdsWithin_splitBy]
  exact fun f hf => Rows.faceHolds_of_holds (qp.rows.lists_faces.isFace f hf) hx

variable [Special K]

theorem keeps_of_holdsWithin (hvalid : qp.validate = .ok ()) {x : Vec K n}
    (hx : (qp.splitBy qp.rows.parts).HoldsWithin 0 x) {i : Fin m}
    (hi : qp.rows.vanishes i = false) :
    (qp.rows.lower.get i).Keeps (qp.rows.upper.get i) ((qp.rows.coeff.mulVec x).get i) :=
  Rows.keeps_of_faceHolds (ordered_of_validate hvalid i) hi (holdsWithin_splitBy.mp hx)

/-- What is called a solution without a hint satisfies the optimality conditions, whatever the dual
method and the fit, if these do what they should on the split program. Rows of zeros are exempt, and
their multipliers are zero. The splitting keeps all feasible points. It fails if there are none, and
no matter whether there are any if a row of zeros has two ends that are the same infinity, which ask
for nothing. -/
theorem cold_is_optimal {e : Engine K} (hvalid : qp.validate = .ok ()) (hanswers : e.Answers qp)
    (hfit : ∀ sp, qp.rows.split = some sp → e.Fits (qp.planeNormals sp)) :
    ((qp.cold e).status = .solved →
      qp.Supported (qp.cold e).x (qp.cold e).y ∧
      (∀ i, qp.rows.vanishes i = false →
        (qp.rows.lower.get i).Keeps (qp.rows.upper.get i)
          ((qp.rows.coeff.mulVec (qp.cold e).x).get i)) ∧
      ∀ i, qp.rows.vanishes i = true → (qp.cold e).y.get i = 0) ∧
    (∀ i, qp.rows.Vacant i → qp.rows.split = none) ∧
    (qp.rows.split = none → (∃ i, qp.rows.Vacant i) ∨ ∀ x, ¬qp.rows.Holds x) ∧
    ∀ sp, qp.rows.split = some sp → ∀ x, qp.rows.Holds x →
      (qp.splitBy sp).HoldsWithin Rows.equalityTol x := by
  refine ⟨fun hsolved => ?_, fun i => Rows.Vacant.split_eq_none, fun hnone => ?_,
    fun sp hsplit x hx => ?_⟩
  · obtain ⟨s, hsplit, hs, hx, hy⟩ := cold_of_solved hsolved
    have hanswered := hanswers _ s hsplit hs
    rw [hx, hy]
    exact ⟨supported_rowMultipliers (hfit _ hsplit) hanswered,
      fun i => keeps_of_holdsWithin hvalid hanswered.holds, fun i => get_rowMultipliers_of_vanishes⟩
  · refine or_iff_not_imp_left.mpr fun hproper x hx => hproper ?_
    exact exists_vacant_of_split (ordered_of_validate hvalid) hnone hx
  · obtain ⟨-, rfl⟩ := Rows.split_eq_some_iff.mp hsplit
    exact holdsWithin_of_holds hx

end Field

end Qp

section Rational

/-- The methods of this library on rational numbers. Fits are made by the normal equations. -/
def Engine.rational : Engine ℚ where
  dual := SplitQp.solve
  linear := Mat.solve?
  fit N b := ((N.transpose.mul N).solve? (N.transposeMulVec b)).getD (Vec.zero _)

theorem Engine.fits_rational {p : Nat} {N : Mat ℚ n p}
    (h : ((N.transpose.mul N).solve? (Vec.zero p)).isSome) :
    Engine.rational.Fits N := by
  intro c
  obtain ⟨x, hx⟩ :=
    Option.isSome_iff_exists.mp
      ((Mat.isSome_solve? _ _ (N.transposeMulVec (N.mulVec c))).symm.trans h)
  change N.mulVec
    (((N.transpose.mul N).solve? (N.transposeMulVec (N.mulVec c))).getD (Vec.zero _)) = _
  rw [hx]
  exact Mat.mulVec_of_normal hx

/-- Minimise `½ (x² + y²) - 8 x + 3 y` under `0 ≤ x ≤ 2`, `3 x + 4 y = 10` and `y ≤ 4`, after a row
of zeros. -/
def Qp.tilted : Qp ℚ 2 4 where
  cost := ⟨Mat.ofFn fun i j => if i = j then 1 else 0, #v[-8, 3]⟩
  rows := ⟨Mat.ofFn ![![0, 0], ![1, 0], ![3, 4], ![0, 1]], #v[.at (-1), .at 0, .at 10, .negInf],
    #v[.at 0, .at 2, .at 10, .at 4]⟩

theorem Qp.answers_tilted : Engine.rational.Answers tilted := by
  intro sp s hsplit h
  obtain ⟨-, rfl⟩ := Rows.split_eq_some_iff.mp hsplit
  have hanswer : (tilted.splitBy tilted.rows.parts).solve.toOption.map
    (fun s => (s.x, s.multipliers)) =
      some (#v[2, 1], ⟨#[1, 0, 9, 0], by decide +kernel⟩) := by decide +kernel
  rw [show (tilted.splitBy tilted.rows.parts).solve = .ok s from h] at hanswer
  obtain ⟨hx, hmultipliers⟩ := Prod.mk.inj (Option.some.inj hanswer)
  -- The multiplier of the plane is negative, which its magnitude does not tell.
  refine ⟨?_, ⟨#[-1, 0, 9, 0], by decide +kernel⟩, ⟨?_, ?_, ?_⟩, ?_⟩
  · rw [hx]
    decide +kernel
  · rw [hx]
    decide +kernel
  · decide +kernel
  · rw [hx]
    decide +kernel
  · rw [hmultipliers]
    decide +kernel

theorem Qp.cold_is_optimal_tilted :
    (tilted.cold .rational).status = .solved ∧ (tilted.cold .rational).x = #v[2, 1] ∧
      tilted.Supported (tilted.cold .rational).x (tilted.cold .rational).y ∧
        (tilted.cold .rational).y.get 0 = 0 := by
  have hvalid : tilted.validate = .ok () := rfl
  have hsolved : (tilted.cold .rational).status = .solved ∧
      (tilted.cold .rational).x = #v[2, 1] := by decide +kernel
  have hfit (sp : Rows.Split 4) (hsplit : tilted.rows.split = some sp) :
      Engine.rational.Fits (tilted.planeNormals sp) := by
    obtain ⟨-, rfl⟩ := Rows.split_eq_some_iff.mp hsplit
    exact Engine.fits_rational (by decide +kernel)
  obtain ⟨hoptimal, -⟩ := cold_is_optimal hvalid answers_tilted hfit
  obtain ⟨hsupported, -, hzero⟩ := hoptimal hsolved.1
  exact ⟨hsolved.1, hsolved.2, hsupported, hzero 0 (by decide +kernel)⟩

/-- Minimise `½ x²` under a row of zeros whose two ends are `+∞`. -/
def Qp.vacant : Qp ℚ 1 1 where
  cost := ⟨Mat.ofFn ![![1]], Vec.zero 1⟩
  rows := ⟨Mat.zero 1 1, Vector.replicate 1 .posInf, Vector.replicate 1 .posInf⟩

theorem Qp.split_vacant : vacant.rows.split = none :=
  Rows.Vacant.split_eq_none (i := 0) ⟨by decide +kernel, .inr ⟨rfl, rfl⟩⟩

theorem Qp.holds_vacant (x : Vec ℚ 1) : vacant.rows.Holds x := by
  intro i
  fin_cases i
  exact ⟨nofun, nofun⟩

/-- There is nothing to violate, and the splitting fails. -/
theorem Qp.split_loses_feasible_points :
    vacant.validate = .ok () ∧ Engine.rational.Answers vacant ∧ vacant.rows.split = none ∧
      (vacant.cold .rational).status = .infeasible ∧ ∀ x, vacant.rows.Holds x := by
  refine ⟨rfl, fun sp s hsplit => ?_, split_vacant, by decide +kernel, holds_vacant⟩
  cases split_vacant.symm.trans hsplit

end Rational

end ComplementarityQP
