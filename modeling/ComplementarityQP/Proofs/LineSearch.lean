import ComplementarityQP.Proofs.Feasibility
import ComplementarityQP.Proofs.Merit
import Mathlib.Tactic.Positivity

/-! The line search. Main statement: along a direction of descent no step up to a full one ends
lower than the one that is taken, and along any other direction it is all or nothing. -/
namespace ComplementarityQP.Problem

variable {K : Type} [Field K] [LinearOrder K] [IsStrictOrderedRing K] {p : Problem K} {ρ : K}
  {x d : Vec K p.vars}

/-- The step ends at the lowest point of the segment from `x` to `x + d`. -/
theorem merit_stepLength_le (hd : p.slope ρ x d < 0) (allowance : K) {t : K} (ht : 0 ≤ t)
    (ht' : t ≤ 1) :
    p.merit ρ (x.shift (p.stepLength ρ x d allowance) d) ≤ p.merit ρ (x.shift t d) := by
  rw [merit_shift, merit_shift]
  obtain ⟨hfull, hend⟩ | ⟨-, hc, hbottom⟩ := stepLength_of_descent hd allowance
  · rw [hfull]
    -- The merit falls over the whole segment: its slope is negative at the start and not positive
    -- at the end.
    have hmiddle : p.slope ρ x d + (t + 1) / 2 * p.curvature ρ d ≤ 0 := by
      obtain hc | hc := le_total 0 (p.curvature ρ d)
      · nlinarith
      · nlinarith
    have hrest : 0 ≤ 1 - t := sub_nonneg.mpr ht'
    nlinarith [mul_nonpos_of_nonneg_of_nonpos hrest hmiddle]
  · generalize p.stepLength ρ x d allowance = α at hbottom
    have hgap : 0 ≤ p.curvature ρ d / 2 * (t - α) ^ 2 := by positivity
    linear_combination hgap + (α - t) * hbottom

variable (p ρ x d)

/-- The step length `α` along `d` is between 0 and 1, and the merit along `d` is the parabola that
`α` is computed from. Along a direction of descent the merit at `α` is the least of all steps up to
a full one, and falls by at least half of what the slope promises. Along any other direction the
step is a full one if that raises the merit by at most the allowance, and none otherwise. -/
theorem stepLength_minimises_merit (allowance : K) :
    let α := p.stepLength ρ x d allowance
    let merit := fun t => p.merit ρ (x.shift t d)
    (0 ≤ α ∧ α ≤ 1) ∧
    (∀ t, merit t = p.merit ρ x + t * p.slope ρ x d + t ^ 2 / 2 * p.curvature ρ d) ∧
    (p.slope ρ x d < 0 →
      (∀ t, 0 ≤ t → t ≤ 1 → merit α ≤ merit t) ∧ merit α ≤ p.merit ρ x + α * p.slope ρ x d / 2) ∧
    (0 ≤ p.slope ρ x d →
      α = 1 ∧ merit α ≤ p.merit ρ x + allowance ∨ α = 0 ∧ p.merit ρ x + allowance < merit 1) := by
  intro α merit
  refine ⟨stepLength_mem ρ x d allowance, p.merit_shift ρ x d,
    fun hd => ⟨?_, (merit_descent_le hd allowance).2⟩, fun hd => ?_⟩
  · intro t ht ht'
    exact merit_stepLength_le hd allowance ht ht'
  · obtain ⟨hfull, hrise⟩ | hnone := stepLength_of_ascent hd allowance
    · refine .inl ⟨hfull, ?_⟩
      rwa [← hfull] at hrise
    · exact .inr hnone

/-- From the origin of the warm-up problem along the diagonal, where the penalty adds to the
curvature and the bottom lies at two thirds of the way, and from the minimum on along the diagonal,
where the merit rises. -/
theorem stepLength_minimises_merit_warmUp :
    let origin : Vec ℚ 2 := #v[0, 0]
    let diagonal : Vec ℚ 2 := #v[1, 1]
    (warmUp.slope 1 origin diagonal < 0 ∧ warmUp.stepLength 1 origin diagonal 0 = 2 / 3 ∧
      ∀ t, 0 ≤ t → t ≤ 1 →
      warmUp.merit 1 (origin.shift (2 / 3) diagonal) ≤ warmUp.merit 1 (origin.shift t diagonal)) ∧
    0 ≤ warmUp.slope 1 diagonal diagonal ∧ warmUp.stepLength 1 diagonal diagonal 0 = 0 ∧
      warmUp.merit 1 diagonal + 0 < warmUp.merit 1 (diagonal.shift 1 diagonal) := by
  intro origin diagonal
  have hdescent : warmUp.slope 1 origin diagonal < 0 := by decide +kernel
  have hascent : 0 ≤ warmUp.slope 1 diagonal diagonal := by decide +kernel
  have hlength : warmUp.stepLength 1 origin diagonal 0 = 2 / 3 := by decide +kernel
  have hnone : warmUp.stepLength 1 diagonal diagonal 0 = 0 := by decide +kernel
  obtain ⟨-, -, hleast, -⟩ := stepLength_minimises_merit warmUp 1 origin diagonal 0
  obtain ⟨-, -, -, hrise⟩ := stepLength_minimises_merit warmUp 1 diagonal diagonal 0
  refine ⟨⟨hdescent, hlength, ?_⟩, hascent, hnone, ?_⟩
  · rw [← hlength]
    exact (hleast hdescent).1
  · obtain ⟨hfull, -⟩ | ⟨-, hrise⟩ := hrise hascent
    · rw [hnone] at hfull
      exact absurd hfull zero_ne_one
    · exact hrise

end ComplementarityQP.Problem
