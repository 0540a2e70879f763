import ComplementarityQP.Proofs.Optimality

/-! Classes of stationary points. Main statement: the signs and the product of the multipliers of
each biactive pair decide the class, and a product of two negative multipliers that is exactly the
tolerance counts as one of opposite signs. -/
namespace ComplementarityQP

namespace Stationarity

theorem rank_injective : Function.Injective rank := by
  intro a b h
  cases a <;> cases b <;> simp [rank] at h ⊢

/-- From the weakest class to the strongest. -/
instance : LinearOrder Stationarity := LinearOrder.lift' rank rank_injective

theorem le_strong (c : Stationarity) : c ≤ .strong := by
  change c.rank ≤ 4
  cases c <;> simp [rank]

theorem eq_weak_iff {c : Stationarity} (h : .weak ≤ c) : c = .weak ↔ ¬.clarke ≤ c := by
  cases c <;> revert h <;> decide

instance : OrderTop Stationarity where
  top := .strong
  le_top := le_strong

end Stationarity

namespace Problem

variable {K : Type} [Field K] [LinearOrder K] [IsStrictOrderedRing K] [Special K]

namespace Allowed

def and (a b : Allowed) : Allowed := ⟨a.strong && b.strong, a.mordukhovich && b.mordukhovich⟩

def Ordered (a : Allowed) : Prop := a.strong = true → a.mordukhovich = true

theorem Ordered.and {a b : Allowed} (ha : a.Ordered) (hb : b.Ordered) : (a.and b).Ordered := by
  intro h
  obtain ⟨hsa, hsb⟩ := Bool.and_eq_true_iff.mp h
  exact Bool.and_eq_true_iff.mpr ⟨ha hsa, hb hsb⟩

theorem best_and {a b : Allowed} (ha : a.Ordered) (hb : b.Ordered) :
    best (some (a.and b)) = min (best (some a)) (best (some b)) := by
  obtain ⟨sa, ma⟩ := a
  obtain ⟨sb, mb⟩ := b
  revert ha hb
  unfold Ordered
  revert sa ma sb mb
  decide

theorem weak_le_best (r : Option Allowed) : .weak ≤ best r := by
  cases r with
  | none => rfl
  | some a =>
    obtain ⟨s, m⟩ := a
    revert s m
    decide

omit [IsStrictOrderedRing K] in
/-- A pair takes away the same whatever was allowed before. -/
theorem after_eq_map (tol : K) (a : Allowed) (yl yr : K) :
    a.after tol yl yr = (after tol ⟨true, true⟩ yl yr).map a.and := by
  unfold after
  dsimp only
  split
  · split
    · rfl
    · simp [and]
  · simp [and]

end Allowed

def pairClass (tol yl yr : K) : Stationarity := Allowed.best (Allowed.after tol ⟨true, true⟩ yl yr)

section Pair
variable [Exact K] {tol yl yr : K}

theorem after_pair (tol yl yr : K) :
    Allowed.after tol ⟨true, true⟩ yl yr =
      if tol ≤ |yl * yr| ∧ min yl yr ≤ 0 then
        if yl * yr ≤ tol then none else some ⟨!decide (min yl yr < 0), false⟩
      else some ⟨!decide (min yl yr < 0), true⟩ := by
  simp only [Allowed.after, magnitude_eq_abs, lesser_eq_min, Bool.true_and, Bool.and_eq_true,
    decide_eq_true_eq]

omit [Special K] [Exact K] in
theorem not_le_neg_of_nonneg (htol : 0 < tol) (h : 0 ≤ yl * yr) : ¬yl * yr ≤ -tol :=
  not_le_of_gt ((neg_lt_zero.mpr htol).trans_le h)

theorem pairClass_comm (tol yl yr : K) : pairClass tol yl yr = pairClass tol yr yl := by
  unfold pairClass
  rw [after_pair, after_pair, mul_comm, min_comm]

omit [Special K] [Exact K] in
/-- Without a negative multiplier a small one of them is zero, and so is the product. -/
theorem small_of_nonneg (htol : 0 < tol) (hl : 0 ≤ yl) (hr : 0 ≤ yr) :
    ¬(tol ≤ |yl * yr| ∧ min yl yr ≤ 0) := by
  rintro ⟨hlarge, hmin⟩
  refine not_le_of_gt htol ?_
  obtain hzero | hzero := min_le_iff.mp hmin
  · rwa [le_antisymm hzero hl, zero_mul, abs_zero] at hlarge
  · rwa [le_antisymm hzero hr, mul_zero, abs_zero] at hlarge

theorem pairClass_of_nonneg (htol : 0 < tol) (hl : 0 ≤ yl) (hr : 0 ≤ yr) :
    pairClass tol yl yr = .strong := by
  rw [pairClass, after_pair, if_neg (small_of_nonneg htol hl hr)]
  simp [Allowed.best, hl, hr]

theorem pairClass_of_neg (hl : yl < 0) (hr : yr < 0) :
    pairClass tol yl yr =
      if yl * yr < tol then .mordukhovich else if yl * yr = tol then .weak else .clarke := by
  have hproduct : |yl * yr| = yl * yr := abs_of_pos (mul_pos_of_neg_of_neg hl hr)
  have hmin : min yl yr < 0 := min_lt_of_left_lt hl
  rw [pairClass, after_pair, hproduct]
  obtain hlt | heq | hgt := lt_trichotomy (yl * yr) tol
  · rw [if_neg fun h => not_le_of_gt hlt h.1, if_pos hlt]
    simp [hl, Allowed.best]
  · simp [heq, hmin.le, Allowed.best]
  · rw [if_pos ⟨hgt.le, hmin.le⟩, if_neg (not_le_of_gt hgt), if_neg (not_lt_of_gt hgt),
      if_neg (ne_of_gt hgt)]
    simp [hl, Allowed.best]

theorem pairClass_of_opposite (htol : 0 < tol) (hl : yl < 0) (hr : 0 ≤ yr) :
    pairClass tol yl yr = if yl * yr ≤ -tol then .weak else .mordukhovich := by
  have hsign : yl * yr ≤ 0 := mul_nonpos_of_nonpos_of_nonneg hl.le hr
  have hmin : min yl yr < 0 := min_lt_of_left_lt hl
  rw [pairClass, after_pair, abs_of_nonpos hsign]
  by_cases h : yl * yr ≤ -tol
  · rw [if_pos ⟨le_neg.mpr h, hmin.le⟩, if_pos (hsign.trans htol.le), if_pos h]
    rfl
  · rw [if_neg fun hlarge => h (le_neg.mp hlarge.1), if_neg h]
    simp [hl, Allowed.best]

/-- Both multipliers point inwards, both outwards, or one each way. -/
theorem pairClass_cases (htol : 0 < tol) (yl yr : K) :
    (0 ≤ yl ∧ 0 ≤ yr) ∧ pairClass tol yl yr = .strong ∨
    (yl < 0 ∧ yr < 0) ∧
      pairClass tol yl yr =
        (if yl * yr < tol then .mordukhovich else if yl * yr = tol then .weak else .clarke) ∨
    (¬(0 ≤ yl ∧ 0 ≤ yr) ∧ ¬(yl < 0 ∧ yr < 0)) ∧
      pairClass tol yl yr = (if yl * yr ≤ -tol then .weak else .mordukhovich) := by
  obtain hl | hl := le_or_gt 0 yl
  · obtain hr | hr := le_or_gt 0 yr
    · exact .inl ⟨⟨hl, hr⟩, pairClass_of_nonneg htol hl hr⟩
    · refine .inr (.inr ⟨⟨fun h => not_le_of_gt hr h.2, fun h => not_le_of_gt h.1 hl⟩, ?_⟩)
      rw [pairClass_comm, pairClass_of_opposite htol hr hl, mul_comm]
  · obtain hr | hr := le_or_gt 0 yr
    · exact .inr
        (.inr ⟨⟨fun h => not_le_of_gt hl h.1, fun h => not_le_of_gt h.2 hr⟩,
        pairClass_of_opposite htol hl hr⟩)
    · exact .inr (.inl ⟨⟨hl, hr⟩, pairClass_of_neg hl hr⟩)

theorem strong_le_pairClass_iff (htol : 0 < tol) :
    .strong ≤ pairClass tol yl yr ↔ 0 ≤ yl ∧ 0 ≤ yr := by
  obtain ⟨hsigns, hclass⟩ | ⟨hsigns, hclass⟩ | ⟨hsigns, hclass⟩ := pairClass_cases htol yl yr
  · exact iff_of_true hclass.ge hsigns
  · refine iff_of_false ?_ fun h => not_le_of_gt hsigns.1 h.1
    rw [hclass]
    split
    · decide
    · split <;> decide
  · refine iff_of_false ?_ hsigns.1
    rw [hclass]
    split <;> decide

theorem mordukhovich_le_pairClass_iff (htol : 0 < tol) :
    .mordukhovich ≤ pairClass tol yl yr ↔ ¬yl * yr ≤ -tol ∧ ¬(yl < 0 ∧ yr < 0 ∧ tol ≤ yl * yr) := by
  obtain ⟨hsigns, hclass⟩ | ⟨hsigns, hclass⟩ | ⟨hsigns, hclass⟩ := pairClass_cases htol yl yr
  · have hnot := not_le_neg_of_nonneg htol (mul_nonneg hsigns.1 hsigns.2)
    exact iff_of_true (hclass ▸ by decide) ⟨hnot, fun h => not_le_of_gt h.1 hsigns.1⟩
  · have hnot := not_le_neg_of_nonneg htol (mul_pos_of_neg_of_neg hsigns.1 hsigns.2).le
    rw [hclass]
    split
    · rename_i hlt
      exact iff_of_true le_rfl ⟨hnot, fun h => not_le_of_gt hlt h.2.2⟩
    · rename_i hle
      refine iff_of_false ?_ fun h => h.2 ⟨hsigns.1, hsigns.2, le_of_not_gt hle⟩
      split <;> decide
  · rw [hclass]
    split
    · rename_i hle
      exact iff_of_false (by decide) fun h => h.1 hle
    · rename_i hnot
      exact iff_of_true le_rfl ⟨hnot, fun h => hsigns.2 ⟨h.1, h.2.1⟩⟩

theorem clarke_le_pairClass_iff (htol : 0 < tol) :
    .clarke ≤ pairClass tol yl yr ↔ ¬yl * yr ≤ -tol ∧ ¬(yl < 0 ∧ yr < 0 ∧ yl * yr = tol) := by
  obtain ⟨hsigns, hclass⟩ | ⟨hsigns, hclass⟩ | ⟨hsigns, hclass⟩ := pairClass_cases htol yl yr
  · have hnot := not_le_neg_of_nonneg htol (mul_nonneg hsigns.1 hsigns.2)
    exact iff_of_true (hclass ▸ by decide) ⟨hnot, fun h => not_le_of_gt h.1 hsigns.1⟩
  · have hnot := not_le_neg_of_nonneg htol (mul_pos_of_neg_of_neg hsigns.1 hsigns.2).le
    rw [hclass]
    split
    · rename_i hlt
      exact iff_of_true (by decide) ⟨hnot, fun h => hlt.ne h.2.2⟩
    · split
      · rename_i heq
        exact iff_of_false (by decide) fun h => h.2 ⟨hsigns.1, hsigns.2, heq⟩
      · rename_i hne
        exact iff_of_true le_rfl ⟨hnot, fun h => hne h.2.2⟩
  · rw [hclass]
    split
    · rename_i hle
      exact iff_of_false (by decide) fun h => h.1 hle
    · rename_i hnot
      exact iff_of_true (by decide) ⟨hnot, fun h => hsigns.2 ⟨h.1, h.2.1⟩⟩

end Pair

namespace Allowed
variable [Exact K] {tol : K}

theorem ordered_of_after (htol : 0 < tol) {yl yr : K} {b : Allowed}
    (h : after tol ⟨true, true⟩ yl yr = some b) :
    b.Ordered := by
  intro hstrong
  have hclass : pairClass tol yl yr = .strong := by rw [pairClass, h, best, if_pos hstrong]
  obtain ⟨hl, hr⟩ := (strong_le_pairClass_iff htol).mp hclass.ge
  rw [after_pair, if_neg (small_of_nonneg htol hl hr)] at h
  cases h
  rfl

/-- A class is left after all pairs if it was left before and by each of them. The scan stops at the
first pair that leaves only the weak class, which is all that the rest could leave then. -/
theorem le_best_foldlM_iff (htol : 0 < tol) {ι : Type} {yl yr : ι → K} {pairs : List ι}
    {a : Allowed} (ha : a.Ordered) {c : Stationarity} :
    c ≤ best (pairs.foldlM (fun a i => a.after tol (yl i) (yr i)) a) ↔
      c ≤ best (some a) ∧ ∀ i ∈ pairs, c ≤ pairClass tol (yl i) (yr i) := by
  induction pairs generalizing a with
  | nil => simp
  | cons i rest ih =>
    rw [List.foldlM_cons, after_eq_map, List.forall_mem_cons]
    cases hpair : after tol ⟨true, true⟩ (yl i) (yr i) with
    | none =>
      have hclass : pairClass tol (yl i) (yr i) = .weak := by rw [pairClass, hpair, best]
      rw [hclass]
      constructor
      · intro hc
        exact ⟨hc.trans (weak_le_best _), hc, fun j _ => hc.trans (weak_le_best _)⟩
      · exact fun h => h.2.1
    | some b =>
      have hb := ordered_of_after htol hpair
      have hclass : pairClass tol (yl i) (yr i) = best (some b) := by rw [pairClass, hpair]
      change c ≤ best (rest.foldlM _ (a.and b)) ↔ _
      rw [ih (ha.and hb), best_and ha hb, le_min_iff, hclass, and_assoc]

end Allowed

variable {p : Problem K} {tol : K} {x : Vec K p.vars} {y : Vec K p.duals}

omit [IsStrictOrderedRing K] in
theorem weak_le_classify (p : Problem K) (tol : K) (x : Vec K p.vars) (y : Vec K p.duals) :
    .weak ≤ p.classify tol x y := Allowed.weak_le_best _

variable [Exact K]

/-- The class of a point is at least `c` if that of each of its biactive pairs is. -/
theorem le_classify_iff (htol : 0 < tol) {c : Stationarity} :
    c ≤ p.classify tol x y ↔ ∀ i, p.Biactive tol x i →
      c ≤ pairClass tol (leftPart y i) (rightPart y i) := by
  have hall : Allowed.Ordered ⟨true, true⟩ := fun _ => rfl
  rw [classify, Allowed.le_best_foldlM_iff htol hall]
  simp only [mem_biactive]
  exact and_iff_right (Stationarity.le_strong c)

/-- The class of a point by the multipliers of its biactive pairs. With none of opposite signs it is
weak for one reason only, two negative multipliers whose product is the tolerance. -/
theorem class_of_multipliers (htol : 0 < tol) (x : Vec K p.vars) (y : Vec K p.duals) :
    (p.classify tol x y = .strong ↔ ∀ i, p.Biactive tol x i → 0 ≤ leftPart y i ∧
      0 ≤ rightPart y i) ∧
    (.mordukhovich ≤ p.classify tol x y ↔ ∀ i, p.Biactive tol x i →
      ¬leftPart y i * rightPart y i ≤ -tol ∧
      ¬(leftPart y i < 0 ∧ rightPart y i < 0 ∧ tol ≤ leftPart y i * rightPart y i)) ∧
    (.clarke ≤ p.classify tol x y ↔ ∀ i, p.Biactive tol x i →
      ¬leftPart y i * rightPart y i ≤ -tol ∧
      ¬(leftPart y i < 0 ∧ rightPart y i < 0 ∧ leftPart y i * rightPart y i = tol)) ∧
    ((∀ i, p.Biactive tol x i → 0 ≤ leftPart y i * rightPart y i) →
      (p.classify tol x y = .weak ↔ ∃ i, p.Biactive tol x i ∧
        leftPart y i < 0 ∧ rightPart y i < 0 ∧ leftPart y i * rightPart y i = tol)) := by
  have hclarke : .clarke ≤ p.classify tol x y ↔ ∀ i, p.Biactive tol x i →
      ¬leftPart y i * rightPart y i ≤ -tol ∧
      ¬(leftPart y i < 0 ∧ rightPart y i < 0 ∧ leftPart y i * rightPart y i = tol) := by
    simp only [le_classify_iff htol, clarke_le_pairClass_iff htol]
  refine ⟨?_, ?_, hclarke, fun hsigns => ?_⟩
  · have hstrong : .strong ≤ p.classify tol x y ↔ p.classify tol x y = .strong := top_le_iff
    simp only [← hstrong, le_classify_iff htol, strong_le_pairClass_iff htol]
  · simp only [le_classify_iff htol, mordukhovich_le_pairClass_iff htol]
  · have hweak : p.classify tol x y = .weak ↔ ¬.clarke ≤ p.classify tol x y :=
      Stationarity.eq_weak_iff (p.weak_le_classify tol x y)
    rw [hweak, hclarke]
    push Not
    refine exists_congr fun i => and_congr_right fun hi => ?_
    have hlarge : -tol < leftPart y i * rightPart y i :=
      lt_of_not_ge (not_le_neg_of_nonneg htol (hsigns i hi))
    exact ⟨fun h => h hlarge, fun h _ => h⟩

/-- At the origin both pairs of the corner are biactive. The multipliers of the first are negative
with product 2, those of the second have opposite signs with product `-¾`. -/
theorem class_of_multipliers_corner :
    let x : Vec ℚ corner.vars := #v[0, 0, 0]
    let y : Vec ℚ corner.duals := #v[0, -2, 3, -1, -1 / 4]
    (0 : ℚ) < 1 ∧ .clarke ≤ corner.classify 1 x y ∧ ¬.mordukhovich ≤ corner.classify 1 x y := by
  intro x y
  obtain ⟨-, hmordukhovich, hclarke, -⟩ := class_of_multipliers (p := corner) one_pos x y
  have hpairs : ∀ i, corner.Biactive 1 x i →
      ¬leftPart y i * rightPart y i ≤ -1 ∧
      ¬(leftPart y i < 0 ∧ rightPart y i < 0 ∧ leftPart y i * rightPart y i = 1) := by
    unfold Biactive
    decide +kernel
  have hfirst : ∃ i, corner.Biactive 1 x i ∧ leftPart y i < 0 ∧ rightPart y i < 0 ∧
      1 ≤ leftPart y i * rightPart y i := by
    unfold Biactive
    decide +kernel
  obtain ⟨i, hi, hnegative⟩ := hfirst
  exact ⟨one_pos, hclarke.mpr hpairs, fun h => (hmordukhovich.mp h i hi).2 hnegative⟩

/-- The origin is a certified solution of the warm-up problem. Its multipliers are both negative,
and it is weak all the same. -/
theorem weak_of_negative_multipliers :
    let x : Vec ℚ warmUp.vars := #v[0, 0]
    let y : Vec ℚ warmUp.duals := #v[-2, -2]
    (0 : ℚ) < 4 ∧ warmUp.certified Options.default x y = true ∧
    (∀ i, warmUp.Biactive 4 x i →
      leftPart y i < 0 ∧ rightPart y i < 0 ∧ ¬leftPart y i * rightPart y i ≤ -4) ∧
    ¬.clarke ≤ warmUp.classify 4 x y ∧ warmUp.classify 4 x y = .weak := by
  intro x y
  refine ⟨by norm_num, by decide +kernel, ?_, by decide +kernel, by decide +kernel⟩
  unfold Biactive
  decide +kernel

end Problem

end ComplementarityQP
