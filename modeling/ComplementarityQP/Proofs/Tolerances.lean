import ComplementarityQP.Proofs.FixedPoint
import ComplementarityQP.Proofs.Optimality

/-! Certificates under other tolerances. Main statement: what is certified stays certified when the
tolerances grow, and a run that returns its start at once goes on doing so. -/
namespace ComplementarityQP

variable {K : Type} [Field K] [LinearOrder K] [IsStrictOrderedRing K] [Special K] [Exact K]

namespace Problem

section Sides
variable {statTol statTol' feasTol feasTol' v y : K} {upper : Bound K}

theorem rowCertified_iff {lower : Bound K} :
    rowCertified lower upper v y statTol feasTol = true ↔
      (statTol < y → ∃ l, lower = .at l ∧ |v - l| ≤ feasTol) ∧
      (y < -statTol → ∃ u, upper = .at u ∧ |v - u| ≤ feasTol) := by
  simp only [rowCertified, Bool.and_eq_true, Bool.not_eq_true', Bool.and_eq_false_imp,
    decide_eq_true_eq, Bound.far_eq_false_iff]

omit [Special K] [Exact K] in
theorem sideCertified_iff {lower gap : K} :
    sideCertified lower upper gap y statTol feasTol = true ↔
      gap ≤ feasTol ∨ |y| ≤ statTol ∨ y ≤ statTol ∧ ∃ u, upper = .at u ∧
        u - lower - gap ≤ feasTol := by
  refine ⟨sideCertified_cases, ?_⟩
  rintro (hlower | hsmall | ⟨hy, u, rfl, hupper⟩)
  · simp [sideCertified, hlower]
  · have hy : y ≤ statTol := (le_abs_self y).trans hsmall
    unfold sideCertified
    split <;> simp [magnitude_eq_abs, hsmall, hy]
  · simp [sideCertified, hupper, hy]

variable (hstat : statTol ≤ statTol') (hfeas : feasTol ≤ feasTol')
include hstat hfeas

/-- With larger tolerances fewer multipliers count, and more bounds are met. -/
theorem rowCertified_mono {lower : Bound K}
    (h : rowCertified lower upper v y statTol feasTol = true) :
    rowCertified lower upper v y statTol' feasTol' = true := by
  obtain ⟨hpos, hneg⟩ := rowCertified_iff.mp h
  refine rowCertified_iff.mpr ⟨fun hy => ?_, fun hy => ?_⟩
  · obtain ⟨l, hl, hclose⟩ := hpos (hstat.trans_lt hy)
    exact ⟨l, hl, hclose.trans hfeas⟩
  · obtain ⟨u, hu, hclose⟩ := hneg (hy.trans_le (neg_le_neg hstat))
    exact ⟨u, hu, hclose.trans hfeas⟩

omit [Special K] [Exact K] in
/-- A side that becomes active is accepted for that: at its lower bound with any multiplier, and at
its upper bound with any that was small before. -/
theorem sideCertified_mono {lower gap : K}
    (h : sideCertified lower upper gap y statTol feasTol = true) :
    sideCertified lower upper gap y statTol' feasTol' = true := by
  obtain hlower | hsmall | ⟨hy, u, hu, hupper⟩ := sideCertified_iff.mp h
  · exact sideCertified_iff.mpr (.inl (hlower.trans hfeas))
  · exact sideCertified_iff.mpr (.inr (.inl (hsmall.trans hstat)))
  · exact sideCertified_iff.mpr (.inr (.inr ⟨hy.trans hstat, u, hu, hupper.trans hfeas⟩))

end Sides

variable {p : Problem K} {o o' : Options K} {x : Vec K p.vars} {y : Vec K p.duals}

omit [IsStrictOrderedRing K] [Exact K] in
theorem Certificate.certified (h : Certificate p o x y) : p.certified o x y = true := by
  simp only [Problem.certified, Bool.and_eq_true, Bool.not_eq_true', decide_eq_false_iff_not,
    not_lt, List.all_eq_true, List.mem_finRange, forall_const]
  exact ⟨⟨⟨⟨h.feasible, h.complementary⟩, h.stationary⟩, h.general⟩, fun i => ⟨h.left i, h.right i⟩⟩

section Mono
variable (hstat : o.stationarityTol ≤ o'.stationarityTol)
  (hcompl : o.complementarityTol ≤ o'.complementarityTol)
include hstat

omit [Special K] [Exact K] in
theorem feasTol_mono (x : Vec K p.vars) : feasTol o x ≤ feasTol o' x := by
  have hsize : 0 ≤ 1 + x.norm := add_nonneg zero_le_one (Vec.norm_nonneg x)
  exact mul_le_mul_of_nonneg_right hstat hsize

include hcompl

theorem Certificate.mono (h : Certificate p o x y) : Certificate p o' x y where
  feasible := h.feasible.trans (feasTol_mono hstat x)
  complementary := h.complementary.trans hcompl
  stationary := h.stationary.trans hstat
  general i := rowCertified_mono hstat (feasTol_mono hstat x) (h.general i)
  left i := sideCertified_mono hstat (feasTol_mono hstat x) (h.left i)
  right i := sideCertified_mono hstat (feasTol_mono hstat x) (h.right i)

theorem isCertified_mono {x y : Array K} (h : p.isCertified o x y = true) :
    p.isCertified o' x y = true := by
  unfold isCertified at h ⊢
  split at h
  · exact ((certificate_of_certified h).mono hstat hcompl).certified
  · cases h

end Mono

end Problem

variable {σ τ : Type} {p : Problem K} {o o' : Options K} {w : WarmStart K} [Root K]

/-- A run that returns its start returns it under larger tolerances too, whatever else differs. -/
theorem Run.AtOnce.loosened {host : Host K σ} {s : σ}
    (hstat : o.stationarityTol ≤ o'.stationarityTol)
    (hcompl : o.complementarityTol ≤ o'.complementarityTol) (h : AtOnce host o p w s)
    (host' : Host K τ) (s' : τ) :
    AtOnce host' o' p w s' ∧ (runFrom host' o' p w s').1.x = (runFrom host o p w s).1.x ∧
      (runFrom host' o' p w s').1.y = (runFrom host o p w s).1.y := by
  obtain ⟨hrejected, hcert⟩ := (atOnce_iff host s).mp h
  have hcert' : w.Certified o' p := by
    obtain ⟨x, y, hx, hy, hxy⟩ := hcert
    exact ⟨x, y, hx, hy, Problem.isCertified_mono hstat hcompl hxy⟩
  obtain ⟨x, y, hx, hy, hr⟩ := returned_of_course (runFrom_course host o p w s) hrejected hcert
  obtain ⟨x', y', hx', hy', hr'⟩ :=
    returned_of_course (runFrom_course host' o' p w s') hrejected hcert'
  refine ⟨(atOnce_iff host' s').mpr ⟨hrejected, hcert'⟩, ?_, ?_⟩
  · rw [hr, hr']
    exact Vector.toArray_inj.mp (Option.some.inj (hx'.symm.trans hx))
  · rw [hr, hr']
    exact Vector.toArray_inj.mp (Option.some.inj (hy'.symm.trans hy))

namespace Problem

/-- Larger tolerances certify whatever smaller ones do, and runs that return at once do so still. -/
theorem certificate_survives_loosening (p : Problem K)
    (hstat : o.stationarityTol ≤ o'.stationarityTol)
    (hcompl : o.complementarityTol ≤ o'.complementarityTol) :
    (∀ x y : Array K, p.isCertified o x y = true → p.isCertified o' x y = true) ∧
    (∀ (w : WarmStart K) {σ τ : Type} (host : Host K σ) (s : σ) (host' : Host K τ) (s' : τ),
      Run.AtOnce host o p w s →
      Run.AtOnce host' o' p w s' ∧
        (Run.runFrom host' o' p w s').1.x = (Run.runFrom host o p w s).1.x ∧
        (Run.runFrom host' o' p w s').1.y = (Run.runFrom host o p w s).1.y) :=
  ⟨fun _ _ => isCertified_mono hstat hcompl,
    fun _ _ _ _ _ host' s' h => h.loosened hstat hcompl host' s'⟩

/-- At `(0, 0, 1)` the bound of `t` is its upper one. With the larger tolerances `t` counts as being
at its lower bound as well. -/
theorem certificate_survives_loosening_corner :
    let o : Options ℚ := .default
    let o' : Options ℚ := { o with stationarityTol := 1, complementarityTol := 1 }
    let x : Array ℚ := #[0, 0, 1]
    let y : Array ℚ := #[1, 1, -6, 3, -1]
    o.stationarityTol ≤ o'.stationarityTol ∧ o.complementarityTol ≤ o'.complementarityTol ∧
    corner.isCertified o x y = true ∧ corner.isCertified o' x y = true ∧
    Run.AtOnce (.answering []) o corner ⟨some x, some y, none⟩ 0 ∧
    Run.AtOnce (.answering []) o' corner ⟨some x, some y, none⟩ 0 := by
  intro o o' x y
  have hstat : o.stationarityTol ≤ o'.stationarityTol := by decide +kernel
  have hcompl : o.complementarityTol ≤ o'.complementarityTol := by decide +kernel
  have hcert : corner.isCertified o x y = true := by decide +kernel
  have hstart : WarmStart.Certified o corner ⟨some x, some y, none⟩ := ⟨x, y, rfl, rfl, hcert⟩
  have honce : Run.AtOnce (.answering []) o corner ⟨some x, some y, none⟩ 0 :=
    (Run.atOnce_iff (.answering []) 0).mpr ⟨hstart.not_rejected, hstart⟩
  obtain ⟨hcertified, hruns⟩ := certificate_survives_loosening corner hstat hcompl
  exact ⟨hstat, hcompl, hcert, hcertified x y hcert, honce,
    (hruns ⟨some x, some y, none⟩ (.answering []) 0 (.answering []) 0 honce).1⟩

end Problem

end ComplementarityQP
