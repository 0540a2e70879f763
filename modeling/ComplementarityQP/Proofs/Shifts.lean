import ComplementarityQP.Proofs.Descent

/-! The search for a diagonal shift. Main statement: it ends at the first acceptable one of a
geometric sequence, and the Hessian of every program is the one that was accepted. -/
namespace ComplementarityQP
open Matrix

variable {K : Type} [Field K] [LinearOrder K]

namespace Subproblem

omit [LinearOrder K] in
/-- The search stops at the first of `n` values that is accepted, or goes past all of them. -/
theorem search_cases (accepts : K → Bool) (growth : K) (n : Nat) (δ : K) :
    (∃ k < n, IsLeast {k | accepts (δ * growth ^ k) = true} k ∧
      search accepts growth n δ = .ok (δ * growth ^ k)) ∨
      (∀ k < n, accepts (δ * growth ^ k) = false) ∧
        search accepts growth n δ = .error (δ * growth ^ n) := by
  induction n generalizing δ with
  | zero => simp [search]
  | succ n ih =>
    have hnext (k : Nat) : δ * growth ^ (k + 1) =
        δ * growth * growth ^ k := by rw [pow_succ', mul_assoc]
    rw [search]
    cases hδ : accepts δ with
    | true =>
      refine .inl ⟨0, n.succ_pos, ⟨?_, fun k _ => k.zero_le⟩, ?_⟩
      · simpa using hδ
      · simp
    | false =>
      rw [if_neg Bool.false_ne_true]
      obtain ⟨k, hk, ⟨haccepted, hleast⟩, hfound⟩ | ⟨hnone, hpast⟩ := ih (δ * growth)
      · refine .inl ⟨k + 1, Nat.succ_lt_succ hk, ⟨?_, fun j hj => ?_⟩, ?_⟩
        · change accepts (δ * growth ^ (k + 1)) = true
          rwa [hnext]
        · cases j with
          | zero => simp [hδ] at hj
          | succ j =>
            change accepts (δ * growth ^ (j + 1)) = true at hj
            rw [hnext] at hj
            exact Nat.succ_le_succ (hleast hj)
        · rw [hfound, hnext]
      · refine .inr ⟨fun k hk => ?_, ?_⟩
        · cases k with
          | zero => simpa using hδ
          | succ k =>
            rw [hnext]
            exact hnone k (Nat.lt_of_succ_lt_succ hk)
        · rw [hpast, hnext]

/-- The shifts that are tried where the Hessian itself is not acceptable. -/
def shiftAt (p : Problem K) (o : Options K) (k : Nat) : K :=
  o.shiftInitial * scale p * o.shiftGrowth ^ k

variable (p : Problem K) (o : Options K)

/-- What the search for a shift can find. -/
theorem find_cases (accepts : Mat K p.vars p.vars → Bool) :
    accepts p.cost.hess = true ∧ find p o accepts = .ok ⟨0⟩ ∨
      accepts p.cost.hess = false ∧
        ((∃ k < o.shiftAttempts,
          IsLeast {k | accepts (p.cost.hess.addDiagonal (shiftAt p o k)) = true} k ∧
            find p o accepts = .ok ⟨shiftAt p o k⟩) ∨
          (∀ k < o.shiftAttempts, accepts (p.cost.hess.addDiagonal (shiftAt p o k)) = false) ∧
            find p o accepts =
              .error (.regularization o.shiftAttempts
                (shiftAt p o o.shiftAttempts / o.shiftGrowth))) := by
  cases hQ : accepts p.cost.hess with
  | true => exact .inl ⟨rfl, by rw [find, if_pos hQ]⟩
  | false =>
    refine .inr ⟨rfl, ?_⟩
    rw [find, hQ, if_neg Bool.false_ne_true]
    dsimp only
    obtain ⟨k, hk, hleast, hfound⟩ | ⟨hnone, hpast⟩ := search_cases
      (fun δ => accepts (p.cost.hess.addDiagonal δ)) o.shiftGrowth o.shiftAttempts
      (o.shiftInitial * scale p)
    · exact .inl ⟨k, hk, hleast, by rw [hfound]; rfl⟩
    · exact .inr ⟨hnone, by rw [hpast]; rfl⟩

section Cases
variable {p o} {accepts : Mat K p.vars p.vars → Bool} {sub : Subproblem p}

/-- A Hessian that is accepted is that of all programs. -/
theorem accepted_of_find (h : find p o accepts = .ok sub) : accepts sub.hess = true := by
  obtain ⟨hQ, hfound⟩ | ⟨-, ⟨k, -, ⟨haccepted, -⟩, hfound⟩ | ⟨-, hfound⟩⟩ := find_cases p o accepts
  · cases hfound.symm.trans h
    rwa [hess, Mat.addDiagonal_zero]
  · cases hfound.symm.trans h
    exact haccepted
  · cases hfound.symm.trans h

theorem find_shifted_iff (hQ : accepts p.cost.hess = false) : find p o accepts = .ok sub ↔
    ∃ k < o.shiftAttempts,
      IsLeast {k | accepts (p.cost.hess.addDiagonal (shiftAt p o k)) = true} k ∧
      sub.shift = shiftAt p o k := by
  obtain ⟨hQ', -⟩ | ⟨-, ⟨k, hk, hleast, hfound⟩ | ⟨hnone, hfound⟩⟩ := find_cases p o accepts
  · cases hQ.symm.trans hQ'
  · constructor
    · intro h
      cases hfound.symm.trans h
      exact ⟨k, hk, hleast, rfl⟩
    · rintro ⟨k', -, hleast', hshift⟩
      rw [hfound, hleast.unique hleast', ← hshift]
  · refine iff_of_false (fun h => ?_) ?_
    · cases hfound.symm.trans h
    · rintro ⟨k, hk, ⟨haccepted, -⟩, -⟩
      cases (hnone k hk).symm.trans haccepted

end Cases

variable [IsStrictOrderedRing K]

/-- The scale of the shifts is the largest of 1 and the magnitudes on the diagonal. -/
theorem isLUB_scale : IsLUB (insert 1 (Set.range fun i => |p.cost.hess i i|)) (scale p) := by
  rw [isLUB_iff_le_iff]
  intro b
  have hdiagonal : p.cost.hess.diagonalNorm ≤ b ↔ 0 ≤ b ∧ ∀ i, |p.cost.hess i i| ≤ b := by
    refine foldl_le_iff fun w i => ?_
    rw [atLeast_eq_max, magnitude_eq_abs, max_le_iff]
  rw [scale, atLeast_eq_max, max_le_iff, hdiagonal, upperBounds_insert, Set.mem_inter_iff,
    Set.mem_Ici]
  simp only [mem_upperBounds, Set.forall_mem_range]
  exact and_congr_right fun hone => and_iff_right (zero_le_one.trans hone)

section Valid
variable [Special K] {p o} (ho : o.Valid) {accepts : Mat K p.vars p.vars → Bool}
include ho

theorem shiftAt_pos (k : Nat) : 0 < shiftAt p o k := by
  have hscale : 1 ≤ scale p := (isLUB_scale p).1 (Set.mem_insert _ _)
  exact mul_pos (mul_pos ho.shiftInitial.1 (zero_lt_one.trans_le hscale))
    (pow_pos (zero_lt_one.trans ho.shift.1) k)

theorem shiftAt_div {k : Nat} (hk : k ≠ 0) :
    shiftAt p o k / o.shiftGrowth = shiftAt p o (k - 1) := by
  obtain ⟨n, rfl⟩ := Nat.exists_eq_succ_of_ne_zero hk
  rw [shiftAt, pow_succ, ← mul_assoc]
  exact mul_div_cancel_right₀ _ (zero_lt_one.trans ho.shift.1).ne'

/-- No shift of the sequence is zero. -/
theorem find_unshifted_iff : find p o accepts = .ok ⟨0⟩ ↔ accepts p.cost.hess = true := by
  obtain ⟨hQ, hfound⟩ | ⟨hQ, ⟨k, -, -, hfound⟩ | ⟨-, hfound⟩⟩ := find_cases p o accepts
  · exact iff_of_true hfound hQ
  · refine iff_of_false (fun h => ?_) (Bool.eq_false_iff.mp hQ)
    exact (shiftAt_pos ho k).ne' (congrArg Subproblem.shift (Except.ok.inj (hfound.symm.trans h)))
  · refine iff_of_false (fun h => ?_) (Bool.eq_false_iff.mp hQ)
    cases hfound.symm.trans h

theorem find_error_iff {f : Fault K} : find p o accepts = .error f ↔
    accepts p.cost.hess = false ∧
      (∀ k < o.shiftAttempts, accepts (p.cost.hess.addDiagonal (shiftAt p o k)) = false) ∧
      f = .regularization o.shiftAttempts (shiftAt p o (o.shiftAttempts - 1)) := by
  obtain ⟨hQ, hfound⟩ | ⟨hQ, ⟨k, hk, ⟨haccepted, -⟩, hfound⟩ | ⟨hnone, hfound⟩⟩ :=
    find_cases p o accepts
  · refine iff_of_false (fun h => ?_) fun h => ?_
    · cases hfound.symm.trans h
    · cases hQ.symm.trans h.1
  · refine iff_of_false (fun h => ?_) fun h => ?_
    · cases hfound.symm.trans h
    · cases (h.2.1 k hk).symm.trans haccepted
  · rw [hfound, shiftAt_div ho ho.shift.2]
    constructor
    · rintro ⟨⟩
      exact ⟨hQ, hnone, rfl⟩
    · rintro ⟨-, -, rfl⟩
      rfl

/-- Unless it is the first of the sequence, a shift that is found comes after one that was
rejected. -/
theorem rejected_of_find {sub : Subproblem p} (h : find p o accepts = .ok sub)
    (hzero : sub.shift ≠ 0) (hfirst : sub.shift ≠ shiftAt p o 0) :
    accepts (p.cost.hess.addDiagonal (sub.shift / o.shiftGrowth)) = false := by
  obtain ⟨-, hfound⟩ | ⟨-, ⟨k, -, ⟨-, hleast⟩, hfound⟩ | ⟨-, hfound⟩⟩ := find_cases p o accepts
  · cases hfound.symm.trans h
    exact absurd rfl hzero
  · cases hfound.symm.trans h
    have hk : k ≠ 0 := by
      rintro rfl
      exact hfirst rfl
    rw [shiftAt_div ho hk]
    by_contra haccepted
    have hle : k ≤ k - 1 := hleast (Bool.eq_true_of_not_eq_false haccepted)
    omega
  · cases hfound.symm.trans h

end Valid

variable {o} [Special K] [Root K]

/-- The search for a shift, for any test of the Hessian `Q`, under valid options. It ends without a
shift if and only if `Q` is accepted. Otherwise the shift is the first one of the sequence `d` that
is accepted within the attempts, and the search fails if and only if there is none. The programs
then have the Hessian that was accepted, and the rows of the problem. If larger shifts are accepted
where smaller ones are, then a shift that is not the first one tried cannot be improved on by a
factor of the growth. The tests of the two solvers are such tests. -/
theorem least_acceptable_shift (ho : o.validate = .ok ()) (accepts : Mat K p.vars p.vars → Bool) :
    let Q := p.cost.hess
    let d := shiftAt p o
    let found := find p o accepts
    IsLUB (insert 1 (Set.range fun i => |Q i i|)) (scale p) ∧
    (found = .ok ⟨0⟩ ↔ accepts Q = true) ∧
    (accepts Q = false → ∀ sub, found = .ok sub ↔
      ∃ k < o.shiftAttempts, IsLeast {k | accepts (Q.addDiagonal (d k)) = true} k ∧
      sub.shift = d k) ∧
    (∀ f, found = .error f ↔ accepts Q = false ∧
      (∀ k < o.shiftAttempts, accepts (Q.addDiagonal (d k)) = false) ∧
      f = .regularization o.shiftAttempts (d (o.shiftAttempts - 1))) ∧
    (∀ sub qp, found = .ok sub → (∃ x ρ, qp = sub.penalized x ρ) ∨ (∃ x, qp = sub.unpenalized x) →
      qp.cost.hess.toMatrix = Q.toMatrix + sub.shift • (1 : Matrix (Fin p.vars) (Fin p.vars) K) ∧
      accepts qp.cost.hess = true ∧ qp.rows = p.stacked) ∧
    (∀ sub low, found = .ok sub → sub.shift ≠ 0 → sub.shift ≠ d 0 →
      MonotoneOn (fun δ => accepts (Q.addDiagonal δ)) (Set.Ici low) →
      ∀ δ, low ≤ δ → δ ≤ sub.shift / o.shiftGrowth → accepts (Q.addDiagonal δ) = false) ∧
    ∀ needsDefinite, build p needsDefinite o = find p o (acceptable p needsDefinite) := by
  intro Q d found
  have hvalid := Options.validate_eq_ok_iff.mp ho
  refine ⟨isLUB_scale p, find_unshifted_iff hvalid, fun hQ sub => find_shifted_iff hQ,
    fun f => find_error_iff hvalid, ?_, ?_, fun _ => rfl⟩
  · intro sub qp h hqp
    have haccepted := accepted_of_find h
    obtain ⟨x, ρ, rfl⟩ | ⟨x, rfl⟩ := hqp
    · exact ⟨Mat.toMatrix_addDiagonal _ _, haccepted, rfl⟩
    · exact ⟨Mat.toMatrix_addDiagonal _ _, haccepted, rfl⟩
  · intro sub low h hzero hfirst hmonotone δ hlow hδ
    have hrejected := rejected_of_find hvalid h hzero hfirst
    have hle := hmonotone hlow (hlow.trans hδ) hδ
    exact Bool.eq_false_of_le_false (hle.trans_eq hrejected)

end Subproblem

/-- The warm-up problem without its curvature in the second variable. -/
def Problem.valley : Problem ℚ :=
  { warmUp with quad := Mat.ofFn fun i j => if i = j ∧ i.val = 0 then 2 else 0 }

namespace Subproblem

/-- A test that wants a millionth on the diagonal takes the third shift of the default options: all
up to the second are too small. -/
theorem least_acceptable_shift_valley :
    let o : Options ℚ := .default
    let accepts :=
      fun H : Mat ℚ Problem.valley.vars Problem.valley.vars => decide (∀ i, 1 / 1000000 ≤ H i i)
    o.validate = .ok () ∧ find Problem.valley o accepts = .ok ⟨2 / 1000000⟩ ∧
    ∀ δ, 0 ≤ δ → δ ≤ 2 / 10000000 → accepts (Problem.valley.cost.hess.addDiagonal δ) = false := by
  intro o accepts
  have ho : o.validate = .ok () :=
    Options.validate_eq_ok_iff.mpr (Options.valid_default fun _ => rfl)
  have hshifts : shiftAt Problem.valley o 0 = 2 / 100000000 ∧
      shiftAt Problem.valley o 2 = 2 / 1000000 := by
    decide +kernel
  have hsmall : ∀ k < 2,
      accepts (Problem.valley.cost.hess.addDiagonal (shiftAt Problem.valley o k)) = false := by
    decide +kernel
  have hmonotone : Monotone fun δ => accepts (Problem.valley.cost.hess.addDiagonal δ) := by
    intro δ δ' hδ
    refine Bool.le_iff_imp.mpr fun h => ?_
    simp only [accepts, decide_eq_true_eq, Mat.addDiagonal, Mat.get_ofFn, if_true, one_mul] at h ⊢
    exact fun i => (h i).trans (by gcongr)
  obtain ⟨-, -, hfound, -, -, hrejected, -⟩ := least_acceptable_shift Problem.valley ho accepts
  have hthird : find Problem.valley o accepts = .ok ⟨2 / 1000000⟩ := by
    refine (hfound (by decide +kernel) _).mpr
      ⟨2, by decide +kernel, ⟨?_, fun k hk => ?_⟩, hshifts.2.symm⟩
    · change accepts (Problem.valley.cost.hess.addDiagonal (shiftAt Problem.valley o 2)) = true
      decide +kernel
    · by_contra hless
      cases (hsmall k (not_le.mp hless)).symm.trans hk
  refine ⟨ho, hthird, fun δ hlow hδ => ?_⟩
  refine hrejected _ 0 hthird (by norm_num) ?_ (hmonotone.monotoneOn _) δ hlow
    (hδ.trans (by decide +kernel))
  rw [hshifts.1]
  norm_num

end Subproblem

end ComplementarityQP
