import Mathlib.Tactic.FieldSimp
import Mathlib.Tactic.Linarith
import Mathlib.Tactic.Positivity

/-! Rounding to 64-bit floats: what lies within half of the gaps around a float is rounded to it, as
a product and as a quotient. -/
namespace ComplementarityQP.Decimal
open Float.Model Float.Model.UnpackedFloat

def halves (em : ExtendedMantissa) : Nat := 2 * em.mantissa + em.roundBit.toNat

/-- The mantissa is `t` cut off at the unit; the bits tell the half, and whether there is more. -/
structure Truncates (em : ExtendedMantissa) (t : ℚ) : Prop where
  below : (halves em : ℚ) ≤ 2 * t
  above : 2 * t < halves em + 1
  sticky : em.stickyBit = false ↔ 2 * t = halves em

theorem halves_shiftRightOne (em : ExtendedMantissa) : halves em.shiftRightOne = em.mantissa := by
  have hdiv := Nat.div_add_mod em.mantissa 2
  obtain hmod | hmod := Nat.mod_two_eq_zero_or_one em.mantissa
  · simp [halves, ExtendedMantissa.shiftRightOne, hmod] at hdiv ⊢
    omega
  · simp [halves, ExtendedMantissa.shiftRightOne, hmod] at hdiv ⊢
    omega

namespace Truncates
variable {em : ExtendedMantissa} {t : ℚ}

theorem shiftRightOne (h : Truncates em t) : Truncates em.shiftRightOne (t / 2) := by
  obtain ⟨hbelow, habove, hsticky⟩ := h
  have hshift : em.shiftRightOne.stickyBit = (em.roundBit || em.stickyBit) := rfl
  refine ⟨?_, ?_, ?_⟩
  · rw [halves_shiftRightOne]
    cases hr : em.roundBit <;> simp [halves, hr] at hbelow <;> linarith
  · rw [halves_shiftRightOne]
    cases hr : em.roundBit <;> simp [halves, hr] at habove <;> linarith
  · rw [halves_shiftRightOne, hshift]
    cases hr : em.roundBit with
    | false =>
      simp only [halves, hr, Bool.false_or, Bool.toNat_false] at hsticky ⊢
      rw [hsticky]
      push_cast
      constructor <;> intro h <;> linarith
    | true =>
      simp only [halves, hr] at hbelow
      simp only [Bool.true_or, Bool.true_eq_false, false_iff]
      push_cast at hbelow
      intro h
      simp at hbelow
      linarith

theorem shiftRight (h : Truncates em t) (n : Nat) : Truncates (em >>> n) (t / 2 ^ n) := by
  induction n with
  | zero =>
    rw [pow_zero, div_one]
    exact h
  | succ n ih =>
    have hstep := ih.shiftRightOne
    rwa [div_div, ← pow_succ] at hstep

/-- The mantissa is rounded to the integer within a half, and to the even one of two. -/
theorem rounded_eq (h : Truncates em t) {n : Nat} (hlow : (2 * n : ℚ) - 1 ≤ 2 * t)
    (hhigh : 2 * t ≤ 2 * n + 1) (hodd : n % 2 = 1 → (2 * n : ℚ) - 1 < 2 * t ∧ 2 * t < 2 * n + 1) :
    em.roundedMantissa = n := by
  obtain ⟨M, r, s⟩ := em
  obtain ⟨hbelow, habove, hsticky⟩ := h
  cases r with
  | false =>
    simp only [halves, Bool.toNat_false, add_zero, Nat.cast_mul, Nat.cast_ofNat] at hbelow habove
    have hle : n < M + 1 := by exact_mod_cast (by linarith : (n : ℚ) < M + 1)
    have hge : M < n + 1 := by exact_mod_cast (by linarith : (M : ℚ) < n + 1)
    cases s <;> simp [ExtendedMantissa.roundedMantissa, ExtendedMantissa.accuracy,
      Accuracy.roundToNearestEven] <;>
      omega
  | true =>
    simp only [halves, Bool.toNat_true, Nat.cast_add, Nat.cast_mul, Nat.cast_ofNat, Nat.cast_one]
      at hbelow habove hsticky
    have hge : M < n + 1 := by exact_mod_cast (by linarith : (M : ℚ) < n + 1)
    have hle : n < M + 2 := by exact_mod_cast (by linarith : (n : ℚ) < M + 2)
    cases s with
    | false =>
      -- A tie: both neighbours are within a half.
      have htie := hsticky.mp rfl
      have heven : n % 2 = 0 := by
        by_contra hne
        obtain ⟨hlow', hhigh'⟩ := hodd (by omega)
        have hlt : n < M + 1 := by exact_mod_cast (by linarith : (n : ℚ) < M + 1)
        have hgt : M < n := by exact_mod_cast (by linarith : (M : ℚ) < n)
        omega
      simp [ExtendedMantissa.roundedMantissa, ExtendedMantissa.accuracy,
        Accuracy.roundToNearestEven]
      omega
    | true =>
      have hmore : (2 * M + 1 : ℚ) < 2 * t :=
        lt_of_le_of_ne hbelow fun he => by simpa using hsticky.mpr he.symm
      have hgt : M < n := by exact_mod_cast (by linarith : (M : ℚ) < n)
      simp [ExtendedMantissa.roundedMantissa, ExtendedMantissa.accuracy,
        Accuracy.roundToNearestEven]
      omega

end Truncates

/-- How a float stores the magnitude `m * 2 ^ q`: with 53 bits, or with the least exponent. -/
structure Canonical (m : Nat) (q : Int) : Prop where
  pos : 0 < m
  lt : m < 2 ^ 53
  least : -1074 ≤ q
  most : q ≤ 971
  normal : q = -1074 ∨ 2 ^ 52 ≤ m

/-- The reals that are rounded to `m * 2 ^ q`: those within half of the gaps to its neighbours. The
gap below is half of the other where the exponent changes. The ends belong to the even mantissa. -/
structure Near (m : Nat) (q : Int) (v : ℚ) : Prop where
  below : (4 * m - (if m = 2 ^ 52 ∧ q ≠ -1074 then 1 else 2) : ℚ) * 2 ^ (q - 2) ≤ v
  above : v ≤ (4 * m + 2 : ℚ) * 2 ^ (q - 2)
  odd : m % 2 = 1 → (4 * m - 2 : ℚ) * 2 ^ (q - 2) < v ∧ v < (4 * m + 2 : ℚ) * 2 ^ (q - 2)

theorem targetExponent_eq (k : Int) : Format.binary64.targetExponent k = max (k - 53) (-1074) := rfl

theorem mantissa_ofMantissaAndAccuracy (M : Nat) (acc : Accuracy) :
    (ExtendedMantissa.ofMantissaAndAccuracy M acc).mantissa = M := by
  cases acc with
  | exact => rfl
  | inexact o => cases o <;> rfl

theorem Truncates.mantissa_le {em : ExtendedMantissa} {t : ℚ} (h : Truncates em t) :
    (em.mantissa : ℚ) ≤ t ∧ t < em.mantissa + 1 := by
  obtain ⟨hbelow, habove, -⟩ := h
  have hbit : em.roundBit.toNat ≤ 1 := Bool.toNat_le _
  have hbit' : (em.roundBit.toNat : ℚ) ≤ 1 := by exact_mod_cast hbit
  have hbit0 : (0 : ℚ) ≤ em.roundBit.toNat := Nat.cast_nonneg _
  simp only [halves, Nat.cast_add, Nat.cast_mul, Nat.cast_ofNat] at hbelow habove
  constructor <;> linarith

section Round
variable {m M : Nat} {q E : Int} {acc : Accuracy} {v : ℚ}

theorem two_zpow_pos (k : Int) : (0 : ℚ) < 2 ^ k := zpow_pos two_pos k

theorem two_zpow_split (a : Int) (b : Nat) : (2 : ℚ) ^ (a + b) = 2 ^ b * 2 ^ a := by
  rw [zpow_add₀ two_ne_zero, zpow_natCast, mul_comm]

/-- The powers of two around a truncated value. -/
theorem two_zpow_log2_le (h : Truncates (.ofMantissaAndAccuracy M acc) (v / 2 ^ E)) (hM : M ≠ 0) :
    (2 : ℚ) ^ (M.log2 + E) ≤ v ∧ v < 2 ^ (M.log2 + 1 + E) := by
  obtain ⟨hlow, hhigh⟩ := h.mantissa_le
  rw [mantissa_ofMantissaAndAccuracy] at hlow hhigh
  have hE := two_zpow_pos E
  rw [le_div_iff₀ hE] at hlow
  rw [div_lt_iff₀ hE] at hhigh
  have hlog : (2 : ℚ) ^ M.log2 ≤ M := by exact_mod_cast Nat.log2_self_le hM
  have hlog' : (M + 1 : ℚ) ≤ 2 ^ (M.log2 + 1) := by exact_mod_cast Nat.lt_log2_self
  constructor
  · calc (2 : ℚ) ^ (M.log2 + E) = 2 ^ M.log2 * 2 ^ E := by rw [add_comm, two_zpow_split]
      _ ≤ M * 2 ^ E := mul_le_mul_of_nonneg_right hlog hE.le
      _ ≤ v := hlow
  · calc v < (M + 1) * 2 ^ E := hhigh
      _ ≤ 2 ^ (M.log2 + 1) * 2 ^ E := mul_le_mul_of_nonneg_right hlog' hE.le
      _ = 2 ^ (M.log2 + 1 + E) := by
        rw [add_comm _ E, ← two_zpow_split E (M.log2 + 1)]
        norm_cast

theorem Near.lt (hc : Canonical m q) (hv : Near m q v) : v < 2 ^ (q + 53) := by
  have hu := two_zpow_pos (q - 2)
  have hm : (m : ℚ) ≤ 2 ^ 53 - 1 := by
    have hlt := hc.lt
    exact_mod_cast (by omega : (m : Int) ≤ 2 ^ 53 - 1)
  calc v ≤ (4 * m + 2) * 2 ^ (q - 2) := hv.above
    _ ≤ (4 * (2 ^ 53 - 1) + 2) * 2 ^ (q - 2) := by gcongr
    _ < 2 ^ 55 * 2 ^ (q - 2) := mul_lt_mul_of_pos_right (by norm_num) hu
    _ = 2 ^ (q + 53) := by rw [← two_zpow_split (q - 2) 55]; congr 1; omega

theorem Near.gt (hv : Near m q v) (hm : 2 ^ 52 ≤ m) : 2 ^ (q + 51) < v := by
  have hu := two_zpow_pos (q - 2)
  have hm' : (2 ^ 52 : ℚ) ≤ m := by exact_mod_cast hm
  have hgap : (if m = 2 ^ 52 ∧ q ≠ -1074 then 1 else 2 : ℚ) ≤ 2 := by split <;> norm_num
  calc (2 : ℚ) ^ (q + 51)
    _ = 2 ^ 53 * 2 ^ (q - 2) := by rw [← two_zpow_split (q - 2) 53]; congr 1; omega
    _ < (4 * 2 ^ 52 - 2) * 2 ^ (q - 2) := mul_lt_mul_of_pos_right (by norm_num) hu
    _ ≤ (4 * m - (if m = 2 ^ 52 ∧ q ≠ -1074 then 1 else 2)) * 2 ^ (q - 2) := by gcongr
    _ ≤ v := hv.below

theorem Near.gt_of_ne (hv : Near m q v) (hm : 2 ^ 52 < m) : 2 ^ (q + 52) < v := by
  have hu := two_zpow_pos (q - 2)
  have hm' : (2 ^ 52 + 1 : ℚ) ≤ m := by exact_mod_cast hm
  have hbelow := hv.below
  rw [if_neg (fun h => hm.ne' h.1)] at hbelow
  calc (2 : ℚ) ^ (q + 52)
    _ = 2 ^ 54 * 2 ^ (q - 2) := by rw [← two_zpow_split (q - 2) 54]; congr 1; omega
    _ < (4 * (2 ^ 52 + 1) - 2) * 2 ^ (q - 2) := mul_lt_mul_of_pos_right (by norm_num) hu
    _ ≤ (4 * m - 2) * 2 ^ (q - 2) := by gcongr
    _ ≤ v := hbelow

/-- The exponent that a value is rounded at is that of the float nearby, unless the value lies below
a power of two. -/
theorem target_cases (hc : Canonical m q) (hv : Near m q v)
    (h : Truncates (.ofMantissaAndAccuracy M acc) (v / 2 ^ E))
    (hE : E ≤ Format.binary64.targetExponent (totalExponent M E)) :
    Format.binary64.targetExponent (totalExponent M E) = q ∨
      m = 2 ^ 52 ∧ q ≠ -1074 ∧ Format.binary64.targetExponent (totalExponent M E) = q - 1 ∧
        v < 2 ^ (q + 52) := by
  rw [targetExponent_eq, totalExponent] at hE ⊢
  have hleast := hc.least
  have hlt := hv.lt hc
  have hiff {a b : Int} : (2 : ℚ) ^ a < 2 ^ b ↔ a < b := zpow_lt_zpow_iff_right₀ one_lt_two
  by_cases hM : M = 0
  · subst hM
    obtain ⟨-, hsmall⟩ := h.mantissa_le
    rw [mantissa_ofMantissaAndAccuracy, div_lt_iff₀ (two_zpow_pos E), Nat.cast_zero, zero_add,
      one_mul] at hsmall
    have hq : q = -1074 := by
      refine hc.normal.resolve_right fun hm => ?_
      have hpow := hiff.mp ((hv.gt hm).trans hsmall)
      simp at hE
      omega
    left
    simp at hE ⊢
    omega
  · obtain ⟨hlow, hhigh⟩ := two_zpow_log2_le h hM
    have hupper := hiff.mp (hlow.trans_lt hlt)
    obtain hq | hm := hc.normal
    · left
      omega
    · have hlower := hiff.mp ((hv.gt hm).trans hhigh)
      by_cases hT : max ((M.log2 : Int) + 1 + E - 53) (-1074) = q
      · exact .inl hT
      · right
        have hk : (M.log2 : Int) + 1 + E = q + 52 := by omega
        rw [hk] at hhigh
        refine ⟨?_, by omega, by omega, hhigh⟩
        by_contra hne
        exact absurd (hv.gt_of_ne (by omega)) (not_lt.mpr hhigh.le)

theorem truncates_shift (h : Truncates (.ofMantissaAndAccuracy M acc) (v / 2 ^ E)) {T : Int}
    (hE : E ≤ T) :
    (shiftToExponent M E acc T).2 = T ∧ Truncates (shiftToExponent M E acc T).1 (v / 2 ^ T) := by
  have hT : E + ((T - E).toNat : Int) = T := by omega
  refine ⟨hT, ?_⟩
  have hshift := h.shiftRight (T - E).toNat
  rwa [div_div, mul_comm, ← two_zpow_split, hT] at hshift

/-- A mantissa that fits is left as it is, and the one after the last gets a larger exponent. -/
theorem shift_fits (hc : Canonical m q) :
    shiftToTargetExponent .binary64 m q .exact = (⟨m, false, false⟩, q) := by
  have hlog := (Nat.log2_lt hc.pos.ne').mpr hc.lt
  have hleast := hc.least
  have hzero : (Format.binary64.targetExponent (totalExponent m q) - q).toNat = 0 := by
    rw [targetExponent_eq, totalExponent]
    omega
  simp only [shiftToTargetExponent, shiftToExponent, hzero, Nat.cast_zero, add_zero]
  rfl

theorem shift_carry (hq : -1074 < q) :
    shiftToTargetExponent .binary64 (2 ^ 53) (q - 1) .exact = (⟨2 ^ 52, false, false⟩, q) := by
  have hone : (Format.binary64.targetExponent (totalExponent (2 ^ 53) (q - 1)) - (q - 1)).toNat =
      1 := by
    rw [targetExponent_eq, totalExponent, Nat.log2_two_pow]
    omega
  simp only [shiftToTargetExponent, shiftToExponent, hone, Nat.cast_one, sub_add_cancel]
  rfl

/-- What lies near a float, in units of its exponent. -/
theorem Near.rounded_eq {em : ExtendedMantissa} (hv : Near m q v) (h : Truncates em (v / 2 ^ q)) :
    em.roundedMantissa = m := by
  obtain ⟨hbelow, habove, hodd⟩ := hv
  have hu := two_zpow_pos (q - 2)
  have hpow : (2 : ℚ) ^ q = 4 * 2 ^ (q - 2) := by
    have hsplit := two_zpow_split (q - 2) 2
    rw [show q - 2 + (2 : ℕ) = q by omega] at hsplit
    rw [hsplit]
    norm_num
  have hval : v = 4 * (v / 2 ^ q) * 2 ^ (q - 2) := by
    rw [hpow]
    field_simp
  rw [hval] at hbelow habove hodd
  simp only [mul_le_mul_iff_left₀ hu, mul_lt_mul_iff_left₀ hu] at hbelow habove hodd
  have hlow : (4 * m - 2 : ℚ) ≤ 4 * (v / 2 ^ q) := by split at hbelow <;> linarith
  refine h.rounded_eq (by linarith) (by linarith) fun hm => ?_
  obtain ⟨hlow, hhigh⟩ := hodd hm
  constructor <;> linarith

/-- Just below a power of two the unit is half of the float's, and the mantissa is rounded up out of
its range. -/
theorem Near.rounded_carry {em : ExtendedMantissa} (hv : Near (2 ^ 52) q v) (hq : q ≠ -1074)
    (hlt : v < 2 ^ (q + 52)) (h : Truncates em (v / 2 ^ (q - 1))) :
    em.roundedMantissa = 2 ^ 53 := by
  have hbelow := hv.below
  rw [if_pos ⟨rfl, hq⟩] at hbelow
  have hu := two_zpow_pos (q - 2)
  have hpow : (2 : ℚ) ^ (q - 1) = 2 * 2 ^ (q - 2) := by
    have hsplit := two_zpow_split (q - 2) 1
    rwa [show q - 2 + (1 : ℕ) = q - 1 by omega, pow_one] at hsplit
  have hval : v = 2 * (v / 2 ^ (q - 1)) * 2 ^ (q - 2) := by
    rw [hpow]
    field_simp
  have htop : (2 : ℚ) ^ (q + 52) = 2 ^ 54 * 2 ^ (q - 2) := by
    rw [← two_zpow_split (q - 2) 54]
    congr 1
    omega
  rw [hval] at hbelow
  rw [hval, htop] at hlt
  rw [mul_le_mul_iff_left₀ hu] at hbelow
  rw [mul_lt_mul_iff_left₀ hu] at hlt
  push_cast at hbelow
  refine h.rounded_eq ?_ ?_ (by simp)
  · push_cast
    linarith
  · push_cast
    linarith

/-- A value near a float is rounded to it. -/
theorem round_eq (hc : Canonical m q) (hv : Near m q v)
    (h : Truncates (.ofMantissaAndAccuracy M acc) (v / 2 ^ E))
    (hE : E ≤ Format.binary64.targetExponent (totalExponent M E)) (s : Sign) :
    roundWithAccuracy .binary64 s M E acc = .finite s m q hc.pos := by
  obtain ⟨hT, htrunc⟩ := truncates_shift h hE
  unfold roundWithAccuracy
  rw [shiftToTargetExponent]
  generalize shiftToExponent M E acc (Format.binary64.targetExponent (totalExponent M E)) =
    first at hT htrunc
  obtain ⟨em, e⟩ := first
  obtain rfl : e = _ := hT
  obtain hq | ⟨hm, hq, hbelow, hlt⟩ := target_cases hc hv h hE
  · have hround : em.roundedMantissa = m := by
      rw [hq] at htrunc
      exact hv.rounded_eq htrunc
    dsimp only
    rw [hround, hq, shift_fits hc]
    exact dif_neg hc.pos.ne'
  · subst hm
    have hround : em.roundedMantissa = 2 ^ 53 := by
      rw [hbelow] at htrunc
      exact hv.rounded_carry hq hlt htrunc
    have hleast := hc.least
    dsimp only
    rw [hround, hbelow, shift_carry (by omega : -1074 < q)]
    rfl

theorem truncates_exact (M : Nat) : Truncates (.ofMantissaAndAccuracy M .exact) M := by
  refine ⟨?_, ?_, ?_⟩ <;> simp [halves, ExtendedMantissa.ofMantissaAndAccuracy]

/-- A quotient with its remainder. -/
theorem truncates_fraction (a : Nat) {b : Nat} (hb : 0 < b) :
    Truncates (.ofMantissaAndAccuracy (a / b) (accuracyOfFraction (a % b) b)) (a / b) := by
  have hdiv : (a : ℚ) =
      b * (a / b : ℕ) + (a % b : ℕ) := by exact_mod_cast (Nat.div_add_mod a b).symm
  have hb' : (0 : ℚ) < b := by exact_mod_cast hb
  have hmod : ((a % b : ℕ) : ℚ) < b := by exact_mod_cast Nat.mod_lt a hb
  have hval : (2 * (a / b : ℚ)) = 2 * (a / b : ℕ) + 2 * (a % b : ℕ) / b := by
    rw [hdiv]
    field_simp
  generalize a / b = k at hval ⊢
  generalize a % b = r at hval hmod ⊢
  rw [accuracyOfFraction]
  split
  case isTrue hr =>
    subst hr
    refine ⟨?_, ?_, ?_⟩ <;> simp [halves, ExtendedMantissa.ofMantissaAndAccuracy, hval]
  case isFalse hr =>
    have hr' : (0 : ℚ) < r := by exact_mod_cast Nat.pos_of_ne_zero hr
    have hpos : (0 : ℚ) < 2 * r / b := by positivity
    obtain hlt | heq | hgt := lt_trichotomy (2 * r) b
    · have hlt' : (2 * r / b : ℚ) < 1 := by
        rw [div_lt_one hb']
        exact_mod_cast hlt
      rw [compare_lt_iff_lt.mpr hlt]
      refine ⟨?_, ?_, ?_⟩ <;> simp [halves, ExtendedMantissa.ofMantissaAndAccuracy, hval]
      · exact hpos.le
      · exact hlt'
      · exact ⟨hr, hb.ne'⟩
    · have heq' : (2 * r / b : ℚ) = 1 := by
        rw [div_eq_one_iff_eq hb'.ne']
        exact_mod_cast heq
      rw [compare_eq_iff_eq.mpr heq]
      refine ⟨?_, ?_, ?_⟩ <;> simp [halves, ExtendedMantissa.ofMantissaAndAccuracy, hval, heq']
    · have hgt' : (1 : ℚ) < 2 * r / b := by
        rw [one_lt_div hb']
        exact_mod_cast hgt
      have htop : (2 * r / b : ℚ) < 2 := by
        rw [div_lt_iff₀ hb']
        linarith
      rw [compare_gt_iff_gt.mpr hgt]
      refine ⟨?_, ?_, ?_⟩ <;> simp [halves, ExtendedMantissa.ofMantissaAndAccuracy, hval]
      · exact hgt'.le
      · linarith
      · exact hgt'.ne'

/-- With 53 bits in the mantissa there is no room below. -/
theorem le_targetExponent (hM : 2 ^ 52 ≤ M) :
    E ≤ Format.binary64.targetExponent (totalExponent M E) := by
  have hlog : 52 ≤ M.log2 := (Nat.le_log2 (by omega)).mpr hM
  rw [targetExponent_eq, totalExponent]
  omega

theorem mul_eq {a b : Nat} {c d : Int} (ha : 0 < a) (hb : 0 < b) (hc : Canonical m q)
    (hv : Near m q (a * 2 ^ c * (b * 2 ^ d))) (hbits : 2 ^ 52 ≤ a * b) :
    mul .binary64 (.finite .positive a c ha) (.finite .positive b d hb) =
      .finite .positive m q hc.pos := by
  refine round_eq hc hv ?_ (le_targetExponent hbits) _
  have hval : (a * 2 ^ c * (b * 2 ^ d) / 2 ^ (c + d) : ℚ) = (a * b : ℕ) := by
    rw [zpow_add₀ two_ne_zero]
    push_cast
    field_simp
  rw [hval]
  exact truncates_exact _

/-- A quotient is taken with 53 bits, unless the least exponent is reached before. -/
theorem divCore_bits {a b : Nat} (c d : Int) (ha : 0 < a) (hb : 0 < b) :
    (divCore .binary64 a c b d).2.1 ≤ Format.binary64.targetExponent
      (totalExponent (divCore .binary64 a c b d).1 (divCore .binary64 a c b d).2.1) := by
  rw [divCore]
  dsimp only
  generalize hE : min (c - d)
    (Format.binary64.targetExponent (totalExponent a c - totalExponent b d)) = E
  rw [targetExponent_eq, totalExponent, totalExponent] at hE
  obtain hlow | hE' := le_or_gt E (-1074)
  · rw [targetExponent_eq]
    omega
  · refine le_targetExponent ((Nat.le_div_iff_mul_le hb).mpr ?_)
    have hshift : b.log2 + 53 ≤ a.log2 + (c - d - E).toNat := by omega
    calc 2 ^ 52 * b ≤ 2 ^ 52 * 2 ^ (b.log2 + 1) := Nat.mul_le_mul_left _ Nat.lt_log2_self.le
      _ = 2 ^ (b.log2 + 53) := by rw [← pow_add]; congr 1; omega
      _ ≤ 2 ^ (a.log2 + (c - d - E).toNat) := Nat.pow_le_pow_right two_pos hshift
      _ = 2 ^ a.log2 * 2 ^ (c - d - E).toNat := pow_add ..
      _ ≤ a * 2 ^ (c - d - E).toNat := Nat.mul_le_mul_right _ (Nat.log2_self_le ha.ne')
      _ = a <<< (c - d - E).toNat := (Nat.shiftLeft_eq ..).symm

theorem div_eq {a b : Nat} {c d : Int} (ha : 0 < a) (hb : 0 < b) (hc : Canonical m q)
    (hv : Near m q (a * 2 ^ c / (b * 2 ^ d))) :
    div .binary64 (.finite .positive a c ha) (.finite .positive b d hb) =
      .finite .positive m q hc.pos := by
  refine round_eq hc hv ?_ (divCore_bits c d ha hb) _
  rw [divCore]
  dsimp only
  generalize hE : min (c - d)
    (Format.binary64.targetExponent (totalExponent a c - totalExponent b d)) = E
  have hb' : (b : ℚ) ≠ 0 := by exact_mod_cast hb.ne'
  have hshift : c - d = E + (c - d - E).toNat := by omega
  have hval : (a * 2 ^ c / (b * 2 ^ d) / 2 ^ E : ℚ) = (a <<< (c - d - E).toNat : ℕ) / b := by
    calc (a * 2 ^ c / (b * 2 ^ d) / 2 ^ E : ℚ) = a * (2 ^ (c - d) / 2 ^ E) / b := by
          rw [zpow_sub₀ two_ne_zero]
          field_simp
      _ = a * 2 ^ (c - d - E).toNat / b := by
          conv_lhs => rw [hshift, two_zpow_split, mul_div_cancel_right₀ _ (two_zpow_pos E).ne']
      _ = (a <<< (c - d - E).toNat : ℕ) / b := by
          rw [Nat.shiftLeft_eq]
          push_cast
          rfl
  rw [hval]
  exact truncates_fraction _ hb

theorem mantissa_shiftRight (em : ExtendedMantissa) (n : Nat) :
    (em >>> n).mantissa = em.mantissa / 2 ^ n := by
  induction n with
  | zero => exact (Nat.div_one _).symm
  | succ n ih =>
    calc (em >>> (n + 1)).mantissa = (em >>> n).mantissa / 2 := rfl
      _ = em.mantissa / 2 ^ (n + 1) := by rw [ih, Nat.div_div_eq_div_mul, ← pow_succ]

theorem roundedMantissa_cases (em : ExtendedMantissa) :
    em.roundedMantissa = em.mantissa ∨ em.roundedMantissa = em.mantissa + 1 := by
  obtain ⟨k, r, s⟩ := em
  cases r <;> cases s <;>
    simp [ExtendedMantissa.roundedMantissa, ExtendedMantissa.accuracy, Accuracy.roundToNearestEven]
  omega

/-- A value in the range of the normal floats is rounded to a finite one. -/
theorem exists_round (hM : 2 ^ 52 ≤ M) (hlow : -1022 ≤ M.log2 + E) (hhigh : M.log2 + E < 1023)
    (s : Sign) :
    ∃ m q, ∃ hc : Canonical m q, roundWithAccuracy .binary64 s M E .exact =
      .finite s m q hc.pos := by
  have hlog : 52 ≤ M.log2 := (Nat.le_log2 (by omega)).mpr hM
  have hT : Format.binary64.targetExponent (totalExponent M E) = M.log2 + E - 52 := by
    rw [targetExponent_eq, totalExponent]
    omega
  have hbits : 2 ^ 52 ≤ M / 2 ^ (M.log2 - 52) ∧ M / 2 ^ (M.log2 - 52) < 2 ^ 53 := by
    constructor
    · rw [Nat.le_div_iff_mul_le (Nat.two_pow_pos _), ← pow_add,
        show 52 + (M.log2 - 52) = M.log2 by omega]
      exact Nat.log2_self_le (by omega)
    · rw [Nat.div_lt_iff_lt_mul (Nat.two_pow_pos _), ← pow_add,
        show 53 + (M.log2 - 52) = M.log2 + 1 by omega]
      exact Nat.lt_log2_self
  unfold roundWithAccuracy
  rw [shiftToTargetExponent, hT, shiftToExponent]
  dsimp only
  rw [show (M.log2 + E - 52 - E : Int).toNat = M.log2 - 52 by omega,
    show E + ((M.log2 - 52 : ℕ) : Int) = M.log2 + E - 52 by omega]
  have hcases :=
    roundedMantissa_cases (ExtendedMantissa.ofMantissaAndAccuracy M .exact >>> (M.log2 - 52))
  rw [mantissa_shiftRight, mantissa_ofMantissaAndAccuracy] at hcases
  generalize (ExtendedMantissa.ofMantissaAndAccuracy M .exact >>> (M.log2 - 52)).roundedMantissa =
    m at hcases ⊢
  by_cases hm : m < 2 ^ 53
  · have hc : Canonical m (M.log2 + E - 52) := ⟨by omega, hm, by omega, by omega, .inr (by omega)⟩
    refine ⟨m, _, hc, ?_⟩
    rw [shift_fits hc]
    exact dif_neg hc.pos.ne'
  · obtain rfl : m = 2 ^ 53 := by omega
    have hc : Canonical (2 ^ 52) (M.log2 + E - 51) :=
      ⟨by omega, by omega, by omega, by omega, .inr le_rfl⟩
    refine ⟨_, _, hc, ?_⟩
    rw [show (M.log2 + E - 52 : Int) = M.log2 + E - 51 - 1 by omega, shift_carry (by omega)]
    rfl

end Round

end ComplementarityQP.Decimal
