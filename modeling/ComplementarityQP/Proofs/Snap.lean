import ComplementarityQP.Proofs.Assembly
import ComplementarityQP.Proofs.Folding
import ComplementarityQP.Qp.Conic

/-! Moving a point onto the rows that bound a single variable, in exact arithmetic. Main statement:
the point comes to violate no bound by more than before, only the variables of such rows move,
moving it again changes nothing, and where the rows of a variable leave it a value, they hold if
they have no other coefficients. -/
namespace ComplementarityQP
open Matrix

variable {K : Type} {m n : Nat}

theorem Mat.get_mulVec_of_single [NonUnitalNonAssocSemiring K] {A : Mat K m n} {i : Fin m}
    {j : Fin n} (h : ∀ k ≠ j, A i k = 0) (x : Vec K n) : (A.mulVec x).get i = A i j * x.get j := by
  rw [get_mulVec, Matrix.mulVec, dotProduct, Finset.sum_eq_single j]
  · rfl
  · intro k _ hk
    rw [toMatrix_apply, h k hk, zero_mul]
  · exact fun hj => absurd (Finset.mem_univ j) hj

/-- Ends that enclose something are on their sides, so a value that keeps the finite ones is
enclosed. -/
theorem Bound.Keeps.encloses [LE K] {lower upper : Bound K} {v w : K} (h : lower.Keeps upper v)
    (hw : lower.Encloses upper w) : lower.Encloses upper v := by
  obtain ⟨hlower, hupper⟩ := hw
  constructor
  · cases lower with
    | negInf => trivial
    | posInf => exact hlower
    | _ l => exact h.1 l rfl
  · cases upper with
    | negInf => exact hupper
    | posInf => trivial
    | _ u => exact h.2 u rfl

namespace Rows

section Line
variable [LinearOrder K] {f : K → K} {low high : Option K} {v w z : K}

/-- Where `f` moves a value to, every value goes that does not lie beyond. -/
structure Settles (f : K → K) : Prop where
  raised : ∀ {v}, v < f v → ∀ w ≤ f v, f w = f v
  lowered : ∀ {v}, f v < v → ∀ w ≥ f v, f w = f v

theorem settles_id : Settles (id : K → K) :=
  ⟨fun h => absurd h (lt_irrefl _), fun h => absurd h (lt_irrefl _)⟩

theorem Settles.apply_apply (h : Settles f) (v : K) : f (f v) = f v := by
  obtain hv | hv | hv := lt_trichotomy v (f v)
  · exact h.raised hv _ le_rfl
  · rw [← hv, ← hv]
  · exact h.lowered hv _ le_rfl

theorem Settles.max (h : Settles f) (l : K) : Settles fun v => max (f v) l where
  raised := by
    intro v hv w hw
    obtain hl | hl := le_total l (f v)
    · rw [max_eq_left hl] at hv hw ⊢
      rw [h.raised hv w hw, max_eq_left hl]
    · rw [max_eq_right hl] at hv hw ⊢
      refine max_eq_right (le_of_not_gt fun hlw => ?_)
      -- `f` raises `w` beyond `l`, so it takes `v` there as well
      have hfv := h.raised (hw.trans_lt hlw) v (hv.trans hlw).le
      exact (hlw.trans_eq hfv.symm).not_ge hl
  lowered := by
    intro v hv w hw
    have hfv : f v < v := (le_max_left _ _).trans_lt hv
    rw [h.lowered hfv w ((le_max_left _ _).trans hw)]

theorem Settles.min (h : Settles f) (u : K) : Settles fun v => min (f v) u := by
  have hdual : Settles (K := Kᵒᵈ) f := ⟨h.lowered, h.raised⟩
  exact ⟨(hdual.max u).lowered, (hdual.max u).raised⟩

/-- `v` moved to the interval with the given ends, where there are any; the upper one prevails. -/
def pull (low high : Option K) (v : K) : K :=
  let w := low.elim v (max v)
  high.elim w (min w)

theorem Settles.pull (h : Settles f) (low high : Option K) :
    Settles fun v => pull low high (f v) := by
  cases low with
  | none =>
    cases high with
    | none => exact h
    | some u => exact h.min u
  | some l =>
    cases high with
    | none => exact h.max l
    | some u => exact (h.max l).min u

def Between (low high : Option K) (v : K) : Prop := (∀ l ∈ low, l ≤ v) ∧ ∀ u ∈ high, v ≤ u

theorem Between.of_mem_uIcc (hv : Between low high v) (hw : Between low high w)
    (hz : z ∈ Set.uIcc v w) :
    Between low high z :=
  ⟨fun l hl => (le_inf (hv.1 l hl) (hw.1 l hl)).trans hz.1,
    fun u hu => hz.2.trans (sup_le (hv.2 u hu) (hw.2 u hu))⟩

/-- A value comes into an interval that is not empty, on its way to any value in it. -/
theorem between_pull (hw : Between low high w) (v : K) :
    Between low high (pull low high v) ∧ pull low high v ∈ Set.uIcc v w := by
  obtain ⟨hlow, hhigh⟩ := hw
  have hraise : low.elim v (max v) ∈ Set.uIcc v w ∧ ∀ l ∈ low, l ≤ low.elim v (max v) := by
    cases low with
    | none => exact ⟨Set.left_mem_uIcc, nofun⟩
    | some l =>
      refine ⟨⟨inf_le_left.trans (le_max_left v l), max_le_max_left v (hlow l rfl)⟩, ?_⟩
      rintro _ ⟨⟩
      exact le_max_right v l
  unfold pull
  generalize low.elim v (max v) = z at hraise
  have hlower : high.elim z (min z) ∈ Set.uIcc z w ∧ ∀ u ∈ high, high.elim z (min z) ≤ u := by
    cases high with
    | none => exact ⟨Set.left_mem_uIcc, nofun⟩
    | some u =>
      refine ⟨⟨min_le_min_left z (hhigh u rfl), (min_le_left z u).trans le_sup_left⟩, ?_⟩
      rintro _ ⟨⟩
      exact min_le_right z u
  refine ⟨⟨fun l hl => ?_, hlower.2⟩, Set.uIcc_subset_uIcc_right hraise.1 hlower.1⟩
  exact (le_inf (hraise.2 l hl) (hlow l hl)).trans hlower.1.1

end Line

/-- The quotient of a finite bound is a number. -/
theorem forall_mem_quotient [Div K] [Special K] [Exact K] {b : Bound K} {c : K} {P : K → Prop} :
    (∀ q ∈ quotient b c, P q) ↔ ∀ v, b = .at v → P (v / c) := by
  cases b <;> simp [quotient, Exact.isFinite]

section Steps
variable [Field K] [LinearOrder K] {r : Rows K m n} {i : Fin m} {j : Fin n}

/-- Row `i` bounds the variable `j` alone, as far as its coefficients count. -/
def Sole (r : Rows K m n) (i : Fin m) (j : Fin n) : Prop :=
  sparsityTol < |r.coeff i j| ∧ ∀ k ≠ j, |r.coeff i k| ≤ sparsityTol

instance (r : Rows K m n) (i : Fin m) (j : Fin n) : Decidable (r.Sole i j) :=
  inferInstanceAs (Decidable (_ ∧ _))

variable [Special K]

def ends (r : Rows K m n) (i : Fin m) (j : Fin n) : Option K × Option K :=
  let c := r.coeff i j
  if 0 < c then (quotient (r.lower.get i) c, quotient (r.upper.get i) c)
  else (quotient (r.upper.get i) c, quotient (r.lower.get i) c)

def pullRow (r : Rows K m n) (j : Fin n) (v : K) (i : Fin m) : K :=
  if r.Sole i j then pull (r.ends i j).1 (r.ends i j).2 v else v

theorem settles_pullRows (is : List (Fin m)) : Settles fun v => is.foldl (r.pullRow j) v := by
  induction is using List.reverseRecOn with
  | nil => exact settles_id
  | append_singleton is i ih =>
    simp only [List.foldl_append, List.foldl_cons, List.foldl_nil]
    by_cases hi : r.Sole i j
    · simp only [pullRow, if_pos hi]
      exact ih.pull _ _
    · simp only [pullRow, if_neg hi]
      exact ih

theorem pullRows_of_unbounded (h : ∀ i, ¬r.Sole i j) (is : List (Fin m)) (v : K) :
    is.foldl (r.pullRow j) v = v := by
  induction is with
  | nil => rfl
  | cons i is ih => rw [List.foldl_cons, pullRow, if_neg (h i), ih]

/-- On its way to a value that all rows allow, a variable comes into the interval of each, and the
later rows do not take it out again. -/
theorem between_pullRows (is : List (Fin m)) {w : K}
    (hw : ∀ i ∈ is, r.Sole i j → Between (r.ends i j).1 (r.ends i j).2 w) (v : K) :
    is.foldl (r.pullRow j) v ∈ Set.uIcc v w ∧
      ∀ i ∈ is, r.Sole i j → Between (r.ends i j).1 (r.ends i j).2 (is.foldl (r.pullRow j) v) := by
  induction is generalizing v with
  | nil => exact ⟨Set.left_mem_uIcc, nofun⟩
  | cons i is ih =>
    obtain ⟨hi, his⟩ := List.forall_mem_cons.mp hw
    obtain ⟨hway, hrest⟩ := ih his (r.pullRow j v i)
    rw [List.foldl_cons]
    by_cases hsole : r.Sole i j
    · have hmoved : r.pullRow j v i = pull (r.ends i j).1 (r.ends i j).2 v := if_pos hsole
      obtain ⟨hinside, hstep⟩ := between_pull (hi hsole) v
      rw [← hmoved] at hinside hstep
      refine ⟨Set.uIcc_subset_uIcc_right hstep hway, List.forall_mem_cons.mpr ⟨fun _ => ?_, hrest⟩⟩
      exact hinside.of_mem_uIcc (hi hsole) hway
    · have hstays : r.pullRow j v i = v := if_neg hsole
      rw [hstays] at hway hrest ⊢
      exact ⟨hway, List.forall_mem_cons.mpr ⟨fun h => absurd h hsole, hrest⟩⟩

end Steps

section Snapped
variable [Field K] [LinearOrder K] [IsStrictOrderedRing K] {r : Rows K m n} {i : Fin m} {j : Fin n}

theorem support_eq_singleton_iff : r.support i = [j] ↔ r.Sole i j := by
  have hmem (k : Fin n) : k ∈ r.support i ↔
      sparsityTol < |r.coeff i k| := by simp [support, magnitude_eq_abs]
  have hnodup : (r.support i).Nodup := (List.nodup_finRange n).filter _
  constructor
  · intro hsupport
    have hj : j ∈ r.support i := by
      rw [hsupport]
      exact List.mem_singleton_self j
    refine ⟨(hmem j).mp hj, fun k hk => le_of_not_gt fun hlarge => hk ?_⟩
    rw [← hmem, hsupport] at hlarge
    exact List.mem_singleton.mp hlarge
  · rintro ⟨hj, hothers⟩
    refine List.perm_singleton.mp
      ((List.perm_ext_iff_of_nodup hnodup (List.nodup_singleton j)).mpr fun k => ?_)
    rw [hmem, List.mem_singleton]
    refine ⟨fun hlarge => ?_, fun hk => hk ▸ hj⟩
    by_contra hk
    exact (hothers k hk).not_gt hlarge

theorem Sole.coeff_ne_zero (h : r.Sole i j) : r.coeff i j ≠ 0 := by
  intro hzero
  have hlarge := h.1
  rw [hzero, abs_zero] at hlarge
  exact hlarge.not_ge (by norm_num [sparsityTol])

variable [Special K]

/-- The point moved onto the rows with a single variable, one after the other. -/
def snapped (r : Rows K m n) (x : Vec K n) : Vec K n := (List.finRange m).foldl r.snapRow x

theorem snapRow_of_sole (h : r.Sole i j) (x : Vec K n) :
    r.snapRow x i = x.put j (pull (r.ends i j).1 (r.ends i j).2 (x.get j)) := by
  unfold snapRow ends
  rw [support_eq_singleton_iff.mpr h]
  by_cases hc : 0 < r.coeff i j
  · simp only [if_pos hc]
    cases quotient (r.lower.get i) (r.coeff i j) <;>
      cases quotient (r.upper.get i) (r.coeff i j) <;>
      simp [pull, atLeast_eq_max, atMost_eq_min, min_comm]
  · simp only [if_neg hc]
    cases quotient (r.lower.get i) (r.coeff i j) <;>
      cases quotient (r.upper.get i) (r.coeff i j) <;>
      simp [pull, atLeast_eq_max, atMost_eq_min, min_comm]

theorem get_snapRow (x : Vec K n) (i : Fin m) (j : Fin n) :
    (r.snapRow x i).get j = r.pullRow j (x.get j) i := by
  unfold pullRow
  by_cases hsole : ∃ k, r.Sole i k
  · obtain ⟨k, hk⟩ := hsole
    rw [snapRow_of_sole hk, Vec.get_put]
    by_cases hjk : j = k
    · rw [hjk, if_pos rfl, if_pos hk]
    · have hnot : ¬r.Sole i j := fun hj => (hk.2 j hjk).not_gt hj.1
      rw [if_neg hjk, if_neg hnot]
  · rw [if_neg fun hj => hsole ⟨j, hj⟩]
    unfold snapRow
    split
    case h_1 k hk => exact absurd ⟨k, support_eq_singleton_iff.mp hk⟩ hsole
    case h_2 => rfl

/-- Every variable moves by itself. -/
theorem get_snapped (x : Vec K n) (j : Fin n) :
    (r.snapped x).get j = (List.finRange m).foldl (r.pullRow j) (x.get j) :=
  (List.foldl_hom (Vector.get · j) fun x i => (get_snapRow x i j).symm).symm

theorem snapped_snapped (x : Vec K n) : r.snapped (r.snapped x) = r.snapped x := by
  apply Vec.ext_get
  intro j
  rw [get_snapped, get_snapped x]
  exact (settles_pullRows _).apply_apply _

/-- A row holds at a value of its only variable that lies between the ends that it sets. -/
theorem keeps_mul_iff [Exact K] (hc : r.coeff i j ≠ 0) {v : K} :
    (r.lower.get i).Keeps (r.upper.get i) (r.coeff i j * v) ↔
      Between (r.ends i j).1 (r.ends i j).2 v := by
  unfold ends Between Bound.Keeps
  dsimp only
  split
  case isTrue hpos => simp only [forall_mem_quotient, div_le_iff₀' hpos, le_div_iff₀' hpos]
  case isFalse hnot =>
    have hneg : r.coeff i j < 0 := lt_of_le_of_ne (le_of_not_gt hnot) hc
    simp only [forall_mem_quotient, div_le_iff_of_neg' hneg, le_div_iff_of_neg' hneg]
    exact and_comm

/-- Moving a point onto the rows that bound a single variable. It violates no bound by more than
before; only variables with such a row move; moving it again changes nothing, even where the rows of
a variable contradict one another. Unless the other rows keep the point where it was, every variable
that its rows leave a value comes to satisfy those that are about nothing else: as far as the finite
ends go, and the infinite ones as well if that value lies between them. -/
theorem snap_settles [Exact K] (r : Rows K m n) (x : Vec K n) :
    r.violation (r.snap x) ≤ r.violation x ∧
    (∀ j, (r.snap x).get j ≠ x.get j → ∃ i, r.Sole i j) ∧
    r.snap (r.snap x) = r.snap x ∧
    (r.violation (r.snapped x) ≤ r.violation x → ∀ j w,
      (∀ i, r.Sole i j → (r.lower.get i).Keeps (r.upper.get i) (r.coeff i j * w)) →
      ∀ i, r.Sole i j → (∀ k ≠ j, r.coeff i k = 0) →
        let v := (r.coeff.mulVec (r.snap x)).get i
        (r.lower.get i).Keeps (r.upper.get i) v ∧
        ((r.lower.get i).Encloses (r.upper.get i) (r.coeff i j * w) →
          (r.lower.get i).Encloses (r.upper.get i) v)) := by
  by_cases haccepted : r.violation (r.snapped x) ≤ r.violation x
  · have hsnap : r.snap x = r.snapped x := if_pos haccepted
    have hagain : r.snap (r.snapped x) = r.snapped x := by
      unfold snap
      rw [← snapped, snapped_snapped, if_pos le_rfl]
    rw [hsnap]
    refine ⟨haccepted, fun j hmoves => ?_, hagain, fun _ j w hw i hi hothers => ?_⟩
    · by_contra hnone
      rw [get_snapped, pullRows_of_unbounded fun i hi => hnone ⟨i, hi⟩] at hmoves
      exact hmoves rfl
    · rw [Mat.get_mulVec_of_single hothers, get_snapped]
      have hbetween := (between_pullRows (List.finRange m)
        (fun i _ hi => (keeps_mul_iff hi.coeff_ne_zero).mp (hw i hi)) (x.get j)).2 i
        (List.mem_finRange i) hi
      have hkeeps := (keeps_mul_iff hi.coeff_ne_zero).mpr hbetween
      exact ⟨hkeeps, hkeeps.encloses⟩
  · have hsnap : r.snap x = x := if_neg haccepted
    rw [hsnap]
    exact ⟨le_rfl, fun j hmoves => absurd rfl hmoves, hsnap, fun h => absurd h haccepted⟩

/-- Two rows that bound `x`, the second with a negative coefficient, and one that couples it with
`y`. -/
def corner : Rows ℚ 3 2 where
  coeff := Mat.ofFn ![![1, 0], ![-2, 0], ![1, 1]]
  lower := #v[.at 0, .at (-4), .at (-10)]
  upper := #v[.posInf, .posInf, .at 10]

/-- A point left of the corner comes onto its edge. -/
theorem snap_settles_corner :
    corner.violation (corner.snapped #v[-1, 1]) ≤ corner.violation #v[-1, 1] ∧ corner.Sole 1 0 ∧
    (∀ k ≠ 0, corner.coeff 1 k = 0) ∧ corner.snap #v[-1, 1] = #v[0, 1] ∧
    (Bound.at (-4)).Encloses (.posInf : Bound ℚ)
      ((corner.coeff.mulVec (corner.snap #v[-1, 1])).get 1) := by
  have haccepted : corner.violation (corner.snapped #v[-1, 1]) ≤
      corner.violation #v[-1, 1] := by decide +kernel
  have hothers : ∀ k ≠ 0, corner.coeff 1 k = 0 := by decide +kernel
  have hkeeps : ∀ i, corner.Sole i 0 →
      (corner.lower.get i).Keeps (corner.upper.get i) (corner.coeff i 0 * 1) := by
    decide +kernel
  have hone : (corner.lower.get 1).Encloses (corner.upper.get 1) (corner.coeff 1 0 * 1) := by
    refine ⟨?_, trivial⟩
    change (-4 : ℚ) ≤ corner.coeff 1 0 * 1
    decide +kernel
  obtain ⟨-, -, -, hrows⟩ := snap_settles corner #v[-1, 1]
  exact ⟨haccepted, by decide +kernel, hothers, by decide +kernel,
    (hrows haccepted 0 1 hkeeps 1 (by decide +kernel) hothers).2 hone⟩

end Snapped

end Rows

end ComplementarityQP
