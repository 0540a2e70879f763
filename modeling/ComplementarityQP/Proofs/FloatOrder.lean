import ComplementarityQP.Proofs.Numerals

/-! The order of 64-bit floats. A NaN compares with nothing, any two other floats compare with one
another, and nothing lies beyond an infinity. -/
namespace ComplementarityQP

/-- Two numbers that each compare with something compare with one another. -/
class Comparable (K : Type) [LT K] [LE K] : Prop where
  lt_of_not_le {a b c d : K} : a ≤ c → d < b → ¬c ≤ b → b < c

instance {K : Type} [LinearOrder K] : Comparable K := ⟨fun _ _ h => lt_of_not_ge h⟩

namespace Decimal
open Float.Model Float.Model.UnpackedFloat

theorem lt_iff_compare {x y : Float} : x < y ↔ (view x).compare (view y) = some .lt := by
  change decide (x.toModel < y.toModel) = true ↔ _
  rw [decide_eq_true_iff]
  change UnpackedFloat.lt (view x) (view y) = true ↔ _
  rw [UnpackedFloat.lt, beq_iff_eq]

theorem le_iff_compare {x y : Float} : x ≤ y ↔ ∃ c ∈ (view x).compare (view y), c.isLE = true := by
  change decide (x.toModel ≤ y.toModel) = true ↔ _
  rw [decide_eq_true_iff]
  change UnpackedFloat.le (view x) (view y) = true ↔ _
  rw [UnpackedFloat.le, Option.any_eq_true]
  rfl

theorem compare_swap (u v : UnpackedFloat) : v.compare u = (u.compare v).map Ordering.swap := by
  cases u with
  | infinity s =>
    cases v with
    | infinity s' => cases s <;> cases s' <;> rfl
    | _ => cases s <;> rfl
  | notANumber => cases v <;> rfl
  | zero s =>
    cases v with
    | infinity s' => cases s' <;> rfl
    | finite s' m q hm => cases s' <;> rfl
    | _ => rfl
  | finite s m q hm =>
    cases v with
    | infinity s' => cases s' <;> rfl
    | notANumber => rfl
    | zero s' => cases s <;> rfl
    | finite s' m' q' hm' =>
      have hswap : (compare q' q).then (compare m' m) =
          ((compare q q').then (compare m m')).swap := by
        rw [Ordering.swap_then, ← Std.OrientedCmp.eq_swap, ← Std.OrientedCmp.eq_swap]
      cases s <;> cases s' <;> simp [UnpackedFloat.compare, hswap]

theorem compare_eq_none_iff {u v : UnpackedFloat} :
    u.compare v = none ↔ u = .notANumber ∨ v = .notANumber := by
  constructor
  · intro h
    cases u with
    | infinity s => cases v <;> cases s <;> simp_all [UnpackedFloat.compare]
    | notANumber => exact .inl rfl
    | zero s =>
      cases v with
      | notANumber => exact .inr rfl
      | _ s' => cases s' <;> simp [UnpackedFloat.compare] at h
    | finite s m q hm =>
      cases v with
      | notANumber => exact .inr rfl
      | _ s' => cases s <;> cases s' <;> simp [UnpackedFloat.compare] at h
  · rintro (rfl | rfl)
    · cases v <;> rfl
    · cases u <;> rfl

theorem lt_of_not_le {x y : Float} (hx : view x ≠ .notANumber) (hy : view y ≠ .notANumber)
    (h : ¬x ≤ y) : y < x := by
  rw [lt_iff_compare, compare_swap (view x) (view y)]
  cases hc : (view x).compare (view y) with
  | none =>
    obtain hnan | hnan := compare_eq_none_iff.mp hc
    · exact absurd hnan hx
    · exact absurd hnan hy
  | some c =>
    have hgt : c.isLE = false := by
      rw [← Bool.not_eq_true]
      exact fun hle => h (le_iff_compare.mpr ⟨c, hc, hle⟩)
    cases c with
    | gt => rfl
    | _ => cases hgt

theorem ne_nan_of_le {x y : Float} (h : x ≤ y) : view y ≠ .notANumber := by
  obtain ⟨c, hc, -⟩ := le_iff_compare.mp h
  intro hnan
  cases (compare_eq_none_iff.mpr (.inr hnan)).symm.trans hc

theorem ne_nan_of_lt {x y : Float} (h : x < y) : view y ≠ .notANumber := by
  intro hnan
  cases (compare_eq_none_iff.mpr (.inr hnan)).symm.trans (lt_iff_compare.mp h)

/-- A float between two others is finite. -/
theorem isFinite_of_between {x y z : Float} (hlow : x < y) (hhigh : y < z) : y.isFinite = true := by
  change (view y).isFinite = true
  have hnan := ne_nan_of_lt hlow
  rw [lt_iff_compare] at hlow hhigh
  cases hy : view y with
  | infinity s =>
    rw [hy] at hlow hhigh
    cases s with
    | positive => cases hz : view z with
      | infinity s' => cases s' <;> simp [hz, UnpackedFloat.compare] at hhigh
      | _ => simp [hz, UnpackedFloat.compare] at hhigh
    | negative => cases hx : view x with
      | infinity s' => cases s' <;> simp [hx, UnpackedFloat.compare] at hlow
      | _ => simp [hx, UnpackedFloat.compare] at hlow
  | notANumber => exact absurd hy hnan
  | zero s => rfl
  | finite s m q hm => rfl

end Decimal

instance : Comparable Float :=
  ⟨fun hc hb h => Decimal.lt_of_not_le (Decimal.ne_nan_of_le hc) (Decimal.ne_nan_of_lt hb) h⟩

end ComplementarityQP
