import ComplementarityQP.Certificate
import ComplementarityQP.Proofs.Exact

/-! Norms, stacked rows and their violation, in exact arithmetic. -/
namespace ComplementarityQP
open Matrix

variable {K : Type} {m n q : Nat}

/-- A fold that keeps the largest value stays below `b` if its start and all values do. -/
theorem foldl_le_iff [LE K] {f : K → Fin n → K} {P : Fin n → Prop} {b start : K}
    (step : ∀ w i, f w i ≤ b ↔ w ≤ b ∧ P i) : Fin.foldl n f start ≤ b ↔ start ≤ b ∧ ∀ i, P i := by
  induction n with
  | zero => simp
  | succ n ih =>
    rw [Fin.foldl_succ_last, step, ih (fun w i => step w i.castSucc), Fin.forall_fin_succ',
      and_assoc]

namespace Vec

theorem get_sub [Sub K] (x y : Vec K n) : (x - y).get = x.get - y.get := by
  funext i
  simp [Vec.get_eq_getElem]

theorem ext_get {x y : Vec K n} (h : ∀ i, x.get i = y.get i) : x = y := by
  apply Vector.ext
  intro i hi
  exact h ⟨i, hi⟩

@[simp] theorem get_zero [Zero K] (i : Fin n) : (zero n : Vec K n).get i = 0 := by
  simp [zero, Vec.get_eq_getElem]

theorem sub_eq_zero_iff [AddGroup K] {x y : Vec K n} : x - y = zero n ↔ x = y := by
  constructor
  · intro h
    apply ext_get
    intro i
    have hi := congrArg (Vector.get · i) h
    simpa [get_sub, sub_eq_zero] using hi
  · rintro rfl
    apply ext_get
    intro i
    rw [get_sub, sub_self, get_zero, Pi.zero_apply]

theorem shift_one_sub [Ring K] (x z : Vec K n) : x.shift 1 (z - x) = z := by
  apply ext_get
  intro i
  rw [get_shift, get_sub, one_smul, add_sub_cancel]

theorem shift_sub_self [Ring K] (x : Vec K n) (c : K) : x.shift c (x - x) = x := by
  apply ext_get
  intro i
  rw [get_shift, get_sub, sub_self, smul_zero, add_zero]

@[simp] theorem get_join_castAdd (x : Vec K m) (y : Vec K n) (i : Fin m) :
    (x.join y).get (i.castAdd n) = x.get i := by
  simp [join]

@[simp] theorem get_join_natAdd (x : Vec K m) (y : Vec K n) (i : Fin n) :
    (x.join y).get (i.natAdd m) = y.get i := by
  simp [join]

section Norm
variable [Field K] [LinearOrder K] [IsStrictOrderedRing K] {x : Vec K n}

theorem norm_le_iff {b : K} : x.norm ≤ b ↔ 0 ≤ b ∧ ∀ i, |x.get i| ≤ b := by
  refine foldl_le_iff fun w i => ?_
  rw [magnitude_eq_abs]
  split
  · rename_i hle
    exact ⟨fun hw => ⟨hw, hle.trans hw⟩, And.left⟩
  · rename_i hle
    exact ⟨fun hx => ⟨(le_of_not_ge hle).trans hx, hx⟩, And.right⟩

theorem norm_nonneg (x : Vec K n) : 0 ≤ x.norm := (norm_le_iff.mp le_rfl).1

theorem abs_get_le_norm (x : Vec K n) (i : Fin n) : |x.get i| ≤ x.norm :=
  (norm_le_iff.mp le_rfl).2 i

theorem norm_sub_self (x : Vec K n) : (x - x).norm = 0 := by
  refine le_antisymm (norm_le_iff.mpr ⟨le_rfl, fun i => ?_⟩) (norm_nonneg _)
  rw [get_sub, sub_self, Pi.zero_apply, abs_zero]

end Norm

end Vec

namespace Mat

theorem get_transposeMulVec [NonUnitalNonAssocSemiring K] (A : Mat K m n) (y : Vec K m) :
    (A.transposeMulVec y).get = A.toMatrixᵀ *ᵥ y.get := by
  funext j
  simp [transposeMulVec, sum_eq_sum, Matrix.mulVec, dotProduct]

theorem mulVec_stack [NonUnitalNonAssocSemiring K] (A : Mat K m n) (B : Mat K q n) (x : Vec K n) :
    (A.stack B).mulVec x = (A.mulVec x).join (B.mulVec x) := by
  apply Vec.ext_get
  intro i
  refine Fin.addCases (fun i => ?_) (fun i => ?_) i
  · simp [mulVec, stack]
  · simp [mulVec, stack]

theorem get_mulVec_sub [Ring K] (A : Mat K m n) (z x : Vec K n) (i : Fin m) :
    (A.mulVec (z - x)).get i = (A.mulVec z).get i - (A.mulVec x).get i := by
  rw [get_mulVec, Vec.get_sub, mulVec_sub, get_mulVec, get_mulVec, Pi.sub_apply]

theorem get_mulVec_shift [CommRing K] (A : Mat K m n) (x d : Vec K n) (t : K) (i : Fin m) :
    (A.mulVec (x.shift t d)).get i = (A.mulVec x).get i + t * (A.mulVec d).get i := by
  simp only [get_mulVec, Vec.get_shift, mulVec_add, mulVec_smul, Pi.add_apply, Pi.smul_apply,
    smul_eq_mul]

theorem dot_transposeMulVec [CommRing K] (A : Mat K m n) (d : Vec K n) (y : Vec K m) :
    d.dot (A.transposeMulVec y) = y.dot (A.mulVec d) := by
  rw [Vec.dot_eq_dotProduct, Vec.dot_eq_dotProduct, get_transposeMulVec, get_mulVec,
    mulVec_transpose, dotProduct_comm, ← dotProduct_mulVec]

end Mat

namespace Rows
variable [Field K] {x z : Vec K n} {b : K}

/-- What holds row by row holds of stacked rows if it holds of both parts. -/
theorem forall_stack {r : Rows K m n} {s : Rows K q n} {P : Bound K → Bound K → K → Prop} :
    (∀ i, P ((r.stack s).lower.get i) ((r.stack s).upper.get i)
      (((r.stack s).coeff.mulVec x).get i)) ↔
      (∀ i, P (r.lower.get i) (r.upper.get i) ((r.coeff.mulVec x).get i)) ∧
      ∀ i, P (s.lower.get i) (s.upper.get i) ((s.coeff.mulVec x).get i) := by
  simp only [stack, Mat.mulVec_stack]
  constructor
  · intro h
    refine ⟨fun i => ?_, fun i => ?_⟩
    · simpa using h (i.castAdd q)
    · simpa using h (i.natAdd m)
  · rintro ⟨hr, hs⟩ i
    refine Fin.addCases (fun i => ?_) (fun i => ?_) i
    · simpa using hr i
    · simpa using hs i

variable [LinearOrder K] (r : Rows K m n)

def Within (b : K) (x : Vec K n) : Prop :=
  ∀ i, (∀ l, r.lower.get i = .at l → l - (r.coeff.mulVec x).get i ≤ b) ∧
    (∀ u, r.upper.get i = .at u → (r.coeff.mulVec x).get i - u ≤ b)

theorem excess_le_iff {lower upper : Bound K} {v w : K} :
    excess lower upper v w ≤ b ↔
      w ≤ b ∧ (∀ l, lower = .at l → l - v ≤ b) ∧ (∀ u, upper = .at u → v - u ≤ b) := by
  cases lower <;> cases upper <;> simp [excess, atLeast_eq_max, and_assoc]

theorem violation_le_iff : r.violation x ≤ b ↔ 0 ≤ b ∧ r.Within b x :=
  foldl_le_iff fun _ _ => excess_le_iff

theorem violation_nonneg (x : Vec K n) : 0 ≤ r.violation x := (r.violation_le_iff.mp le_rfl).1

theorem within_violation (x : Vec K n) : r.Within (r.violation x) x :=
  (r.violation_le_iff.mp le_rfl).2

variable {r} {s : Rows K q n}

theorem holds_stack : (r.stack s).Holds x ↔ r.Holds x ∧ s.Holds x :=
  forall_stack (P := Bound.Keeps)

theorem within_stack : (r.stack s).Within b x ↔ r.Within b x ∧ s.Within b x :=
  forall_stack (P := fun lower upper v =>
    (∀ l, lower = .at l → l - v ≤ b) ∧ (∀ u, upper = .at u → v - u ≤ b))

theorem violation_eq_zero_iff [IsStrictOrderedRing K] {r : Rows K m n} :
    r.violation x = 0 ↔ r.Holds x := by
  rw [← (r.violation_nonneg x).ge_iff_eq', violation_le_iff, and_iff_right le_rfl]
  simp only [Within, Holds, Bound.Keeps, sub_nonpos]

end Rows

namespace Problem

section Parts
variable {r k : Nat}

theorem forall_parts {P : Fin (r + k + k) → Prop}
    (hgeneral : ∀ i : Fin r, P ((i.castAdd k).castAdd k))
    (hleft : ∀ i : Fin k, P ((i.natAdd r).castAdd k)) (hright : ∀ i : Fin k, P (i.natAdd (r + k)))
    (i) : P i :=
  Fin.addCases (fun i => Fin.addCases hgeneral hleft i) hright i

end Parts

end Problem

end ComplementarityQP
