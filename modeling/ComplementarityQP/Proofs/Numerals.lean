import ComplementarityQP.Json.Value
import ComplementarityQP.Proofs.Rounding
import Mathlib

/-! The numeral of a finite float reads back as that float. Mathlib is imported whole for its lemmas
about packed floats, which none of its modules brings by itself. -/
namespace ComplementarityQP.Decimal
open Float.Model Float.Model.UnpackedFloat

/-! The parts of a float: sign, exponent and mantissa. -/

theorem exponentBias_eq : (Format.binary64.exponentBias : Int) = 1023 := rfl

theorem toNat_implicit (k : BitVec 52) : (1#1 ++ k).toNat = 2 ^ 52 + k.toNat := by
  rw [BitVec.toNat_append, ← Nat.shiftLeft_add_eq_or_of_lt k.isLt]
  rfl

theorem finite_congr {s : Sign} {m m' : Nat} {q q' : Int} (hm : m = m') (hq : q = q') (h : 0 < m)
    (h' : 0 < m') :
    UnpackedFloat.finite s m q h = .finite s m' q' h' := by
  subst hm hq
  rfl

theorem unpack_normal {s : Sign} {e : BitVec 11} {k : BitVec 52} (hzero : e ≠ 0#11)
    (hones : e ≠ -1#11) :
    UnpackedFloat.unpack .binary64 (packComponents .binary64 s e k) =
      .finite s (2 ^ 52 + k.toNat) (e.toNat - 1075) (by omega) := by
  simp only [UnpackedFloat.unpack, unpackExponent_packComponents, unpackMantissa_packComponents,
    unpackSign_packComponents, Sign.ofBitVec_toBitVec, hzero, hones, if_false, exponentBias_eq]
  exact finite_congr (toNat_implicit k) (by simp) _ _

theorem unpack_subnormal {s : Sign} {k : BitVec 52} (hk : 0 < k.toNat) :
    UnpackedFloat.unpack .binary64 (packComponents .binary64 s 0#11 k) =
      .finite s k.toNat (-1074) hk := by
  have hk0 : k ≠ 0#52 := fun h => hk.ne' (congrArg BitVec.toNat h)
  have hones : 0#11 ≠ -1#11 := by decide
  simp only [UnpackedFloat.unpack, unpackExponent_packComponents, unpackMantissa_packComponents,
    unpackSign_packComponents, Sign.ofBitVec_toBitVec, hk0, hones, if_false, if_true, dite_false,
    exponentBias_eq]
  exact finite_congr rfl (by simp) _ _

theorem not_isFinite_unpack (s : Sign) (k : BitVec 52) :
    (UnpackedFloat.unpack .binary64 (packComponents .binary64 s (-1#11) k)).isFinite = false := by
  simp only [UnpackedFloat.unpack, unpackExponent_packComponents, if_true]
  split <;> rfl

def view (x : Float) : UnpackedFloat := x.toModel.unpack

def stored (u : UnpackedFloat) : Float := .ofModel (.pack u)

theorem stored_view (x : Float) : stored (view x) = x :=
  Float.toBits_inj.mp (UInt64.toBitVec_inj.mp (pack_unpack_of_valid x.toModel.valid))

theorem mul_float (x y : Float) : x * y = stored (mul .binary64 (view x) (view y)) := rfl

theorem div_float (x y : Float) : x / y = stored (div .binary64 (view x) (view y)) := rfl

theorem neg_float (x : Float) : -x = stored (neg (view x)) := rfl

theorem view_stored_zero (s : Sign) : view (stored (.zero s)) = .zero s := unpack_packedZero

theorem view_stored {m : Nat} {q : Int} (hc : Canonical m q) (s : Sign) :
    view (stored (.finite s m q hc.pos)) = .finite s m q hc.pos := by
  obtain ⟨hpos, hlt, hleast, hmost, hnormal⟩ := hc
  have hlog := (Nat.log2_lt hpos.ne').mpr hlt
  change UnpackedFloat.unpack .binary64 (UnpackedFloat.pack .binary64 _) = _
  have hbits : Format.binary64.mantissaBits = 53 := rfl
  rw [UnpackedFloat.pack, exponentBias_eq, hbits]
  dsimp only
  generalize hb : (q + 1023 + ((52 : ℕ) : ℤ)).toNat = b
  rw [if_neg (by omega)]
  by_cases hm : 2 ^ 52 ≤ m
  · have hlog' := (Nat.le_log2 hpos.ne').mpr hm
    have hexp : (BitVec.ofNat 11 b).toNat = b := by
      rw [BitVec.toNat_ofNat, Nat.mod_eq_of_lt (by omega)]
    have hne (k : Nat) (hk : b ≠ k) : (BitVec.ofNat 11 b).toNat ≠ k := by rwa [hexp]
    rw [if_pos (by omega), unpack_normal (mt (congrArg BitVec.toNat) (hne 0 (by omega)))
      (mt (congrArg BitVec.toNat) (hne 2047 (by omega)))]
    refine finite_congr ?_ (by omega) _ _
    rw [BitVec.toNat_ofNat]
    omega
  · have hlog' := (Nat.log2_lt hpos.ne').mpr (Nat.lt_of_not_le hm)
    have hman : (BitVec.ofNat 52 m).toNat = m := by
      rw [BitVec.toNat_ofNat, Nat.mod_eq_of_lt (by omega)]
    rw [if_neg (by omega), unpack_subnormal (by omega)]
    exact finite_congr hman (hnormal.resolve_right hm).symm _ _

theorem toNat_exponent (u : UInt64) :
    ((u >>> 52) &&& 0x7FF).toNat = (@unpackExponent .binary64 u.toBitVec).toNat := by
  rw [unpackExponent_def, BitVec.extractLsb'_toNat, UInt64.toNat_and, UInt64.toNat_shiftRight]
  exact Nat.and_two_pow_sub_one_eq_mod (n := 11) _

theorem toNat_mantissa (u : UInt64) :
    (u &&& 0xFFFFFFFFFFFFF).toNat = (@unpackMantissa .binary64 u.toBitVec).toNat := by
  rw [unpackMantissa_def, BitVec.extractLsb'_toNat, UInt64.toNat_and]
  exact Nat.and_two_pow_sub_one_eq_mod (n := 52) _

theorem shiftRight_eq_one_iff (u : UInt64) :
    u >>> 63 = 1 ↔ @unpackSign .binary64 u.toBitVec = 1#1 := by
  have hlt : u.toNat >>> 63 < 2 := by
    rw [Nat.shiftRight_eq_div_pow]
    have := u.toNat_lt
    omega
  rw [← UInt64.toNat_inj, UInt64.toNat_shiftRight, ← BitVec.toNat_inj, unpackSign_def,
    BitVec.extractLsb'_toNat]
  change _ ↔ u.toNat >>> 63 % 2 = 1
  rw [Nat.mod_eq_of_lt hlt]
  rfl

/-- What a finite float stands for, and what is read off its bits. -/
theorem view_cases {x : Float} (hx : x.isFinite = true) :
    (∃ s, view x = .zero s ∧ (signBit x = true ↔ s = .negative)) ∨
      ∃ s m q, ∃ hc : Canonical m q, view x = .finite s m q hc.pos ∧
        (signBit x = true ↔ s = .negative) ∧
        Binary.ofFloat x = ⟨m, q, decide (m = 2 ^ 52 ∧ q ≠ -1074)⟩ := by
  have hview : view x = UnpackedFloat.unpack .binary64 x.toBits.toBitVec := rfl
  have hfinite : (view x).isFinite = true := hx
  have hsign := shiftRight_eq_one_iff x.toBits
  rw [Binary.ofFloat, Binary.ofBits, toNat_exponent, toNat_mantissa, signBit, decide_eq_true_iff,
    hsign]
  rw [hview] at hfinite ⊢
  rw [← @packComponents_unpackSign_unpackExponent_unpackMantissa .binary64
    x.toBits.toBitVec] at hfinite ⊢
  generalize Sign.ofBitVec (@unpackSign .binary64 x.toBits.toBitVec) = s at hfinite ⊢
  generalize @unpackExponent .binary64 x.toBits.toBitVec = e at hfinite ⊢
  generalize @unpackMantissa .binary64 x.toBits.toBitVec = k at hfinite ⊢
  rw [unpackExponent_packComponents, unpackMantissa_packComponents, unpackSign_packComponents]
  have hbit : s.toBitVec = 1#1 ↔ s = .negative := by cases s <;> simp [Sign.toBitVec]
  rw [hbit]
  change BitVec 11 at e
  change BitVec 52 at k
  have he := e.isLt
  have hk := k.isLt
  have hones : e ≠ -1#11 := by
    rintro rfl
    rw [not_isFinite_unpack] at hfinite
    contradiction
  by_cases hzero : e = 0#11
  · subst hzero
    by_cases hk0 : k.toNat = 0
    · obtain rfl : k = 0#52 := BitVec.toNat_inj.mp hk0
      exact .inl ⟨s, unpack_packedZero, Iff.rfl⟩
    · right
      have hkpos := Nat.pos_of_ne_zero hk0
      exact ⟨s, k.toNat, -1074, ⟨hkpos, by omega, by omega, by omega, .inl rfl⟩,
        unpack_subnormal hkpos, Iff.rfl, by simp⟩
  · right
    have hepos : 0 < e.toNat := Nat.pos_of_ne_zero fun h => hzero (BitVec.toNat_inj.mp h)
    have hetop : e.toNat ≠ 2047 := fun h => hones (BitVec.toNat_inj.mp h)
    refine ⟨s, 2 ^ 52 + k.toNat, e.toNat - 1075,
      ⟨by omega, by omega, by omega, by omega, .inr (by omega)⟩, unpack_normal hzero hones,
      Iff.rfl, ?_⟩
    have hnarrow : (1 < e.toNat) = ¬ (e.toNat : Int) - 1075 = -1074 := propext (by omega)
    rw [if_neg hepos.ne']
    simp [hnarrow]

/-! Reading decimals: products and quotients with powers of ten. -/

theorem near_self {m : Nat} {q : Int} : Near m q (m * 2 ^ q) := by
  have hu := two_zpow_pos (q - 2)
  have hval : (m * 2 ^ q : ℚ) = 4 * m * 2 ^ (q - 2) := by
    have hsplit := two_zpow_split (q - 2) 2
    rw [show q - 2 + (2 : ℕ) = q by omega] at hsplit
    rw [hsplit]
    ring
  rw [hval]
  refine ⟨?_, ?_, fun _ => ⟨?_, ?_⟩⟩
  · refine mul_le_mul_of_nonneg_right ?_ hu.le
    split <;> linarith
  · exact mul_le_mul_of_nonneg_right (by linarith) hu.le
  · exact mul_lt_mul_of_pos_right (by linarith) hu
  · exact mul_lt_mul_of_pos_right (by linarith) hu

/-- A natural number below `2 ^ 53` is a float. -/
theorem view_toFloat {n : Nat} (hpos : 0 < n) (hlt : n < 2 ^ 53) :
    ∃ a c, ∃ hc : Canonical a c, view n.toUInt64.toFloat = .finite .positive a c hc.pos ∧
      (a * 2 ^ c : ℚ) = n ∧
      2 ^ 52 ≤ a := by
  have hlog := (Nat.log2_lt hpos.ne').mpr hlt
  have hT : Format.binary64.targetExponent (totalExponent n 0) = n.log2 - 52 := by
    rw [targetExponent_eq, totalExponent]
    omega
  have hshift : (0 - (n.log2 - 52 : Int)).toNat = 52 - n.log2 := by omega
  have hlow : 2 ^ 52 ≤ n * 2 ^ (52 - n.log2) := by
    calc 2 ^ 52 = 2 ^ n.log2 * 2 ^ (52 - n.log2) := by rw [← pow_add]; congr 1; omega
      _ ≤ n * 2 ^ (52 - n.log2) := Nat.mul_le_mul_right _ (Nat.log2_self_le hpos.ne')
  have hhigh : n * 2 ^ (52 - n.log2) < 2 ^ 53 := by
    calc n * 2 ^ (52 - n.log2) < 2 ^ (n.log2 + 1) * 2 ^ (52 - n.log2) :=
          Nat.mul_lt_mul_of_pos_right Nat.lt_log2_self (Nat.two_pow_pos _)
      _ = 2 ^ 53 := by rw [← pow_add]; congr 1; omega
  have hc : Canonical (n * 2 ^ (52 - n.log2)) (n.log2 - 52) :=
    ⟨by omega, hhigh, by omega, by omega, .inr hlow⟩
  have hround : UnpackedFloat.ofUInt64 .binary64 n.toUInt64 =
      .finite .positive _ (n.log2 - 52) hc.pos := by
    have hn : n.toUInt64.toNat = n := by
      rw [Nat.toUInt64_eq, UInt64.toNat_ofNat', Nat.mod_eq_of_lt (by omega)]
    rw [UnpackedFloat.ofUInt64, hn, UnpackedFloat.ofNat, UnpackedFloat.ofInt,
      UnpackedFloat.normalize, compare_gt_iff_gt.mpr (by omega)]
    dsimp only
    rw [UnpackedFloat.round, Int.toNat_natCast, hT, decreaseExponent, hshift, Nat.shiftLeft_eq]
    dsimp only
    rw [show (0 : Int) - ((52 - n.log2 : ℕ) : ℤ) = n.log2 - 52 by omega]
    refine round_eq hc near_self ?_ (le_targetExponent hlow) _
    rw [mul_div_cancel_right₀ _ (two_zpow_pos _).ne']
    exact truncates_exact _
  refine ⟨_, _, hc, ?_, ?_, hlow⟩
  · change view (stored (UnpackedFloat.ofUInt64 .binary64 n.toUInt64)) = _
    rw [hround, view_stored hc]
  · push_cast
    rw [mul_assoc, ← two_zpow_split,
      show (n.log2 - 52 : Int) + ((52 - n.log2 : ℕ) : ℤ) = 0 by omega, zpow_zero, mul_one]

/-- A power, with the exponent's two signs apart. -/
theorem zpow_mul_toNat {b : ℚ} (hb : b ≠ 0) (k : Int) : b ^ k * b ^ (-k).toNat = b ^ k.toNat := by
  rw [← zpow_natCast, ← zpow_natCast, ← zpow_add₀ hb]
  congr 1
  omega

def exactly (x : Float) (n : Nat) : Bool :=
  match view x with
  | .finite .positive b d _ => b * 2 ^ d.toNat == n * 2 ^ (-d).toNat
  | _ => false

theorem view_of_exactly {x : Float} {n : Nat} (h : exactly x n = true) :
    ∃ b d, ∃ hb : 0 < b, view x = .finite .positive b d hb ∧ (b * 2 ^ d : ℚ) = n := by
  unfold exactly at h
  split at h
  case h_1 b d hb hview =>
    refine ⟨b, d, hb, hview, ?_⟩
    have hparts : (b * 2 ^ d.toNat : ℚ) = n * 2 ^ (-d).toNat := by exact_mod_cast beq_iff_eq.mp h
    rw [← zpow_mul_toNat two_ne_zero, ← mul_assoc] at hparts
    exact mul_right_cancel₀ (pow_ne_zero _ two_ne_zero) hparts
  case h_2 => contradiction

theorem exactly_powers :
    ∀ e : Fin 23, exactly Float.exactlyRepresentablePowersOfTen[e] (10 ^ e.val) = true := by
  decide +kernel

theorem mul_zpow_of_neg (a : ℚ) {k : Int} (hk : k < 0) : a * 10 ^ k = a / 10 ^ k.natAbs := by
  have hparts := zpow_mul_toNat (by norm_num : (10 : ℚ) ≠ 0) k
  rw [show (-k).toNat = k.natAbs by omega, show k.toNat = 0 by omega, pow_zero] at hparts
  rw [eq_one_div_of_mul_eq_one_left hparts, mul_one_div]

/-- A decimal near a float is read as that float. -/
theorem ofScientific_eq {n m : Nat} {q k : Int} (hn : 0 < n) (hc : Canonical m q)
    (hv : Near m q (n * 10 ^ k)) (hmost : k ≤ 2048) (hleast : -(2048 + n.log2) ≤ k) :
    Float.ofScientific n (k < 0) k.natAbs = stored (.finite .positive m q hc.pos) := by
  unfold Float.ofScientific
  split
  case isTrue hsmall =>
    obtain ⟨a, c, hac, hview, hval, hbits⟩ := view_toFloat hn hsmall.1
    have ha := hac.pos
    obtain ⟨b, d, hb, hview', hval'⟩ := view_of_exactly (exactly_powers ⟨k.natAbs, by omega⟩)
    rw [Fin.getElem_fin] at hview'
    push_cast at hval'
    dsimp only
    split
    case isTrue hneg =>
      refine (div_float _ _).trans (congrArg stored ?_)
      rw [hview, hview']
      refine div_eq ha hb hc ?_
      rwa [hval, hval', ← mul_zpow_of_neg _ (of_decide_eq_true hneg)]
    case isFalse hpos =>
      have hk : (k.natAbs : Int) = k := by
        have := mt decide_eq_true hpos
        omega
      refine (mul_float _ _).trans (congrArg stored ?_)
      rw [hview, hview']
      refine mul_eq ha hb hc ?_ (hbits.trans (Nat.le_mul_of_pos_right _ hb))
      rwa [hval, hval', ← zpow_natCast, hk]
  case isFalse =>
    have hk : (if decide (k < 0) then Int.negOfNat k.natAbs else Int.ofNat k.natAbs) = k := by
      by_cases hneg : k < 0
      · rw [if_pos (decide_eq_true hneg), Int.negOfNat_eq, Int.ofNat_eq_natCast]
        omega
      · rw [if_neg (by simpa using hneg), Int.ofNat_eq_natCast]
        omega
    dsimp only
    rw [hk]
    refine congrArg stored ?_
    rw [UnpackedFloat.ofScientific, dif_neg hn.ne', if_neg (by norm_num; omega),
      if_neg (by norm_num; omega)]
    split
    case isTrue hpos =>
      obtain ⟨e, rfl⟩ := Int.eq_ofNat_of_zero_le hpos
      have hbits : Format.binary64.mantissaBits = 53 := rfl
      have hval : (n * 2 ^ 53 * 2 ^ (-53 : Int) * (10 ^ e * 2 ^ (0 : Int)) : ℚ) =
          n * 10 ^ (e : Int) := by
        rw [zpow_natCast]
        norm_num
        ring
      rw [← hval] at hv
      refine mul_eq _ _ hc ?_ ?_
      · rw [hbits, Nat.shiftLeft_eq, Int.toNat_natCast, Nat.cast_mul, Nat.cast_pow, Nat.cast_pow]
        exact hv
      · rw [hbits, Nat.shiftLeft_eq]
        calc 2 ^ 52 ≤ 1 * 2 ^ 53 * 1 := by norm_num
          _ ≤ n * 2 ^ 53 * 10 ^ e :=
            Nat.mul_le_mul (Nat.mul_le_mul_right _ hn) (Nat.one_le_pow _ _ (by norm_num))
    case isFalse hneg =>
      refine div_eq hn _ hc ?_
      push_cast
      rwa [mul_one, mul_one, show (-k).toNat = k.natAbs by omega, ← mul_zpow_of_neg _ (by omega)]

/-! The fewest digits of a float. -/

def Dec.value (d : Dec) : ℚ := d.digits * 10 ^ d.exp

theorem ten_ne_zero : (10 : ℚ) ≠ 0 := by norm_num

theorem compare_scaled {a b : Nat} {x y c : ℚ} (hc : 0 < c) (ha : (a : ℚ) = x * c)
    (hb : (b : ℚ) = y * c) :
    compare a b = compare x y := by
  obtain hlt | heq | hgt := lt_trichotomy x y
  · have hab : a < b := by
      rw [← Nat.cast_lt (α := ℚ), ha, hb]
      exact mul_lt_mul_of_pos_right hlt hc
    rw [compare_lt_iff_lt.mpr hlt, compare_lt_iff_lt.mpr hab]
  · have hab : a = b := by
      rw [← Nat.cast_inj (R := ℚ), ha, hb, heq]
    rw [compare_eq_iff_eq.mpr heq, compare_eq_iff_eq.mpr hab]
  · have hab : b < a := by
      rw [← Nat.cast_lt (α := ℚ), ha, hb]
      exact mul_lt_mul_of_pos_right hgt hc
    rw [compare_gt_iff_gt.mpr hgt, compare_gt_iff_gt.mpr hab]

theorem Dec.compareBinary_eq (d : Dec) (n : Nat) (j : Int) :
    d.compareBinary n j = compare d.value (n * 2 ^ j) := by
  have hpos : (0 : ℚ) < 2 ^ (-j).toNat * 10 ^ (-d.exp).toNat := by positivity
  refine compare_scaled hpos ?_ ?_
  · have hparts := zpow_mul_toNat ten_ne_zero d.exp
    simp only [Nat.pow_eq, Dec.value]
    push_cast
    rw [← hparts]
    ring
  · have hparts := zpow_mul_toNat two_ne_zero j
    simp only [Nat.pow_eq]
    push_cast
    rw [← hparts]
    ring

theorem near_of_readsBack {x : Binary} (hm : 0 < x.m)
    (hnarrow : x.narrowBelow = decide (x.m = 2 ^ 52 ∧ x.q ≠ -1074)) {d : Dec}
    (h : x.readsBack d = true) :
    Near x.m x.q d.value := by
  have hgap : ((if x.m = 2 ^ 52 ∧ x.q ≠ -1074 then 4 * x.m - 1 else 4 * x.m - 2 : ℕ) : ℚ) =
      4 * x.m - (if x.m = 2 ^ 52 ∧ x.q ≠ -1074 then 1 else 2) := by
    split
    · rw [Nat.cast_sub (by omega)]
      push_cast
      rfl
    · rw [Nat.cast_sub (by omega)]
      push_cast
      rfl
  have hhalf : ((4 * x.m + 2 : ℕ) : ℚ) = 4 * x.m + 2 := by push_cast; rfl
  simp only [Binary.readsBack, hnarrow, Dec.compareBinary_eq, Bool.and_eq_true, Bool.or_eq_true,
    decide_eq_true_eq, compare_lt_iff_lt, compare_gt_iff_gt, compare_eq_iff_eq, hgap, hhalf] at h
  obtain ⟨hlow, hhigh⟩ := h
  refine ⟨?_, ?_, fun hodd => ⟨?_, ?_⟩⟩
  · exact hlow.elim le_of_lt fun h => h.2.ge
  · exact hhigh.elim le_of_lt fun h => h.2.le
  · have hlt := hlow.resolve_right fun h => by omega
    rwa [if_neg (fun h => by omega)] at hlt
  · exact hhigh.resolve_right fun h => by omega

theorem readsBack_of_onGrid {x : Binary} {e : Int} {d : Dec} (h : x.onGrid e = some d) :
    x.readsBack d = true := by
  rw [Binary.onGrid] at h
  split at h
  case h_1 hlower hupper =>
    split at h <;> cases h
    · exact hlower
    · exact hupper
  case h_2 hlower _ =>
    cases h
    exact hlower
  case h_3 _ hupper =>
    cases h
    exact hupper
  case h_4 => cases h

theorem Dec.value_strip (fuel : Nat) (d : Dec) : (d.strip fuel).value = d.value := by
  induction fuel generalizing d with
  | zero => rfl
  | succ fuel ih =>
    rw [Dec.strip]
    split
    case isTrue h =>
      have hdigits : (d.digits : ℚ) = 10 * (d.digits / 10 : ℕ) := by
        simp at h
        exact_mod_cast (Nat.mul_div_cancel' (Nat.dvd_of_mod_eq_zero h.1)).symm
      rw [ih, Dec.value, Dec.value, hdigits, zpow_add₀ ten_ne_zero, zpow_one]
      dsimp only
      ring
    case isFalse => rfl

/-- The fewest digits lie near the float they are of. -/
theorem near_shortest {x : Binary} (hm : 0 < x.m)
    (hnarrow : x.narrowBelow = decide (x.m = 2 ^ 52 ∧ x.q ≠ -1074)) :
    Near x.m x.q x.shortest.value := by
  unfold Binary.shortest
  extract_lets k
  split
  case h_1 d hd =>
    rw [Dec.value_strip]
    obtain ⟨n, -, hgrid⟩ := List.exists_of_findSome?_eq_some hd
    exact near_of_readsBack hm hnarrow (readsBack_of_onGrid hgrid)
  case h_2 =>
    have hparts := zpow_mul_toNat two_ne_zero x.q
    have hval : Dec.value ⟨x.num * Nat.pow 5 (-x.q).toNat, -(-x.q).toNat⟩ = x.m * 2 ^ x.q := by
      simp only [Dec.value, Binary.num, Nat.pow_eq]
      push_cast
      rw [← hparts, zpow_neg, zpow_natCast, show (10 : ℚ) = 2 * 5 by norm_num, mul_pow]
      field_simp
    rw [hval]
    exact near_self

/-! Decimals near a float have no extreme exponents. -/

theorem two_zpow_le_ten_zpow : (2 : ℚ) ^ (1200 : Int) ≤ 10 ^ (400 : Int) := by
  calc (2 : ℚ) ^ (1200 : Int) = (2 ^ 3) ^ 400 := by rw [← pow_mul, ← zpow_natCast]; norm_num
    _ ≤ 10 ^ 400 := pow_le_pow_left₀ (by norm_num) (by norm_num) _
    _ = 10 ^ (400 : Int) := by rw [← zpow_natCast]; norm_num

theorem Near.two_zpow_lt {m : Nat} {q : Int} {v : ℚ} (hc : Canonical m q) (hv : Near m q v) :
    2 ^ (-1200 : Int) < v := by
  have hu := two_zpow_pos (q - 2)
  have hm : (1 : ℚ) ≤ m := by exact_mod_cast hc.pos
  have hgap : (if m = 2 ^ 52 ∧ q ≠ -1074 then 1 else 2 : ℚ) ≤ 2 := by split <;> norm_num
  have hleast := hc.least
  calc (2 : ℚ) ^ (-1200 : Int) < 2 ^ (q - 2) := zpow_lt_zpow_right₀ one_lt_two (by omega)
    _ = 1 * 2 ^ (q - 2) := (one_mul _).symm
    _ ≤ (4 * m - (if m = 2 ^ 52 ∧ q ≠ -1074 then 1 else 2)) * 2 ^ (q - 2) :=
      mul_le_mul_of_nonneg_right (by linarith) hu.le
    _ ≤ v := hv.below

theorem Near.lt_two_zpow {m : Nat} {q : Int} {v : ℚ} (hc : Canonical m q) (hv : Near m q v) :
    v < 2 ^ (1200 : Int) := by
  have hmost := hc.most
  exact (hv.lt hc).trans (zpow_lt_zpow_right₀ one_lt_two (by omega))

theorem length_bounds {n : Nat} (hn : 0 < n) :
    10 ^ ((toString n).length - 1) ≤ n ∧ n < 10 ^ (toString n).length := by
  have hpos : 0 < n.repr.length := Nat.length_repr_pos
  rw [Nat.toString_eq_repr]
  refine ⟨?_, (Nat.length_repr_le_iff hpos).mp le_rfl⟩
  by_contra hlt
  have hone : n.repr.length - 1 ≠ 0 := fun h => by
    rw [h] at hlt
    omega
  have hle := (Nat.length_repr_le_iff (Nat.pos_of_ne_zero hone)).mpr (Nat.lt_of_not_le hlt)
  omega

/-- Digits of a decimal near a float: the leading one is not far from the point. -/
theorem size_bounds {n m : Nat} {q k : Int} (hn : 0 < n) (hc : Canonical m q)
    (hv : Near m q (n * 10 ^ k)) :
    -400 ≤ k + (toString n).length ∧ k + (toString n).length ≤ 400 := by
  obtain ⟨hlow, hhigh⟩ := length_bounds hn
  have hpos : 0 < (toString n).length := Nat.length_repr_pos
  generalize (toString n).length = l at hlow hhigh hpos ⊢
  have ht : (0 : ℚ) < 10 ^ k := zpow_pos (by norm_num) k
  have hiff {a b : Int} : (10 : ℚ) ^ a < 10 ^ b ↔ a < b := zpow_lt_zpow_iff_right₀ (by norm_num)
  have hlow' : (10 : ℚ) ^ ((l : Int) - 1) ≤ n := by
    rw [show ((l : Int) - 1) = ((l - 1 : ℕ) : ℤ) by omega, zpow_natCast]
    exact_mod_cast hlow
  have hhigh' : (n : ℚ) < 10 ^ (l : Int) := by
    rw [zpow_natCast]
    exact_mod_cast hhigh
  have hlower : -400 < k + l := by
    refine hiff.mp ?_
    calc (10 : ℚ) ^ (-400 : Int) ≤ 2 ^ (-1200 : Int) := by
          rw [zpow_neg, zpow_neg]
          exact inv_anti₀ (two_zpow_pos _) two_zpow_le_ten_zpow
      _ < n * 10 ^ k := hv.two_zpow_lt hc
      _ < 10 ^ (l : Int) * 10 ^ k := mul_lt_mul_of_pos_right hhigh' ht
      _ = 10 ^ (k + l) := by rw [add_comm, zpow_add₀ ten_ne_zero]
  have hupper : k + l - 1 < 400 := by
    refine hiff.mp ?_
    calc (10 : ℚ) ^ (k + l - 1) = 10 ^ ((l : Int) - 1) * 10 ^ k := by
          rw [← zpow_add₀ ten_ne_zero]
          congr 1
          omega
      _ ≤ n * 10 ^ k := mul_le_mul_of_nonneg_right hlow' ht.le
      _ < 2 ^ (1200 : Int) := hv.lt_two_zpow hc
      _ ≤ 10 ^ (400 : Int) := two_zpow_le_ten_zpow
  omega

theorem length_le_log2 {n : Nat} (hn : 0 < n) : (toString n).length ≤ n.log2 + 1 := by
  have hlow := (length_bounds hn).1
  have hpow : 2 ^ ((toString n).length - 1) < 2 ^ (n.log2 + 1) :=
    calc 2 ^ ((toString n).length - 1) ≤ 10 ^ ((toString n).length - 1) :=
      Nat.pow_le_pow_left (by norm_num) _
      _ ≤ n := hlow
      _ < 2 ^ (n.log2 + 1) := Nat.lt_log2_self
  have := (Nat.pow_lt_pow_iff_right (by norm_num : 1 < 2)).mp hpow
  omega

end ComplementarityQP.Decimal

namespace ComplementarityQP.Numeral
open Decimal Float.Model Float.Model.UnpackedFloat

theorem isFinite_stored {m : Nat} {q : Int} (hc : Canonical m q) (s : Sign) :
    (stored (.finite s m q hc.pos)).isFinite = true := by
  change (view (stored _)).isFinite = true
  rw [view_stored hc]
  rfl

/-- Unless its leading digit is far from the point, a literal is read digit by digit. -/
theorem toFloat?_eq {n : Nat} {k : Int} (hn : 0 < n) (hlow : -400 ≤ k + (toString n).length)
    (hhigh : k + (toString n).length ≤ 400)
    (hfinite : (Float.ofScientific n (k < 0) k.natAbs).isFinite = true) (negative integral : Bool) :
    toFloat? ⟨negative, n, k, integral⟩ =
      some (if negative then -Float.ofScientific n (k < 0) k.natAbs
        else Float.ofScientific n (k < 0) k.natAbs) := by
  have hskip : ¬ ((decide (n = 0) || decide (k + (toString n).length < -400)) = true) := by
    simp only [Bool.or_eq_true, decide_eq_true_eq]
    omega
  unfold toFloat?
  dsimp only
  rw [if_neg hskip, if_neg (show ¬ 400 < k + ((toString n).length : Int) by omega), if_pos hfinite]

theorem toFloat?_near {n m : Nat} {q k : Int} (hn : 0 < n) (hc : Canonical m q)
    (hv : Near m q (n * 10 ^ k)) (negative integral : Bool) :
    toFloat? ⟨negative, n, k, integral⟩ =
      some (stored (.finite (if negative then .negative else .positive) m q hc.pos)) := by
  obtain ⟨hlow, hhigh⟩ := size_bounds hn hc hv
  have hlen := length_le_log2 hn
  have hpos : 0 < (toString n).length := Nat.length_repr_pos
  have hread := ofScientific_eq hn hc hv (by omega) (by omega)
  rw [toFloat?_eq hn hlow hhigh (by rw [hread]; exact isFinite_stored hc _), hread, neg_float,
    view_stored hc]
  cases negative <;> rfl

theorem beq_zero (x : Float) : (x == 0) = UnpackedFloat.beq (view x) (.zero .positive) := by
  have hzero : (0 : Float) = stored (.zero .positive) := by decide +kernel
  rw [hzero]
  change UnpackedFloat.beq (view x) (view (stored _)) = _
  rw [view_stored_zero]

theorem toFloat?_zero (negative integral : Bool) :
    toFloat? ⟨negative, 0, 0, integral⟩ =
      some (stored (.zero (if negative then .negative else .positive))) := by
  cases negative <;> cases integral <;> decide +kernel

/-- The numeral of a finite float reads back as that float. -/
theorem toFloat?_ofFloat {x : Float} (hx : x.isFinite = true) : (ofFloat x).toFloat? = some x := by
  have hstored := stored_view x
  obtain ⟨s, hview, hsign⟩ | ⟨s, m, q, hc, hview, hsign, hbinary⟩ := view_cases hx
  · have hzero : (x == 0) = true := by
      rw [beq_zero, hview]
      cases s <;> rfl
    have hs : (if signBit x then Sign.negative else Sign.positive) = s := by
      cases s <;> simp [hsign]
    rw [ofFloat, hzero, if_pos rfl, toFloat?_zero, hs, ← hview, hstored]
  · have hne : (x == 0) = false := by
      rw [beq_zero, hview]
      cases s <;> rfl
    have hs : (if signBit x then Sign.negative else Sign.positive) = s := by
      cases s <;> simp [hsign]
    have hnear :=
      near_shortest (x := Binary.ofFloat x) (by rw [hbinary]; exact hc.pos) (by rw [hbinary])
    rw [ofFloat, hne, if_neg (by simp)]
    generalize (Binary.ofFloat x).shortest = d at hnear ⊢
    rw [hbinary] at hnear
    have hdigits : 0 < d.digits := by
      refine Nat.pos_of_ne_zero fun h => ?_
      have hlt := hnear.two_zpow_lt hc
      rw [Dec.value, h, Nat.cast_zero, zero_mul] at hlt
      exact absurd hlt (two_zpow_pos _).le.not_gt
    rw [toFloat?_near hdigits hc hnear, hs, ← hview, hstored]

theorem log2_mul_two_pow {n : Nat} (hn : 0 < n) (k : Nat) : (n * 2 ^ k).log2 = n.log2 + k := by
  refine (Nat.log2_eq_iff (Nat.mul_pos hn (Nat.two_pow_pos k)).ne').mpr ⟨?_, ?_⟩
  · rw [pow_add]
    exact Nat.mul_le_mul_right _ (Nat.log2_self_le hn.ne')
  · rw [add_right_comm, pow_add]
    exact Nat.mul_lt_mul_of_pos_right Nat.lt_log2_self (Nat.two_pow_pos k)

theorem ofScientific_nat {n : Nat} (hn : 0 < n) : UnpackedFloat.ofScientific .binary64 n 0 =
    roundWithAccuracy .binary64 .positive (n * 2 ^ 53) (-53) .exact := by
  have hbits : Format.binary64.mantissaBits = 53 := rfl
  have hlow : ¬ (0 : Int) < -((2 ^ Format.binary64.exponentBits : Int) + n.log2) := by
    have : (0 : Int) ≤ 2 ^ Format.binary64.exponentBits := by positivity
    omega
  rw [UnpackedFloat.ofScientific, dif_neg hn.ne', if_neg (by decide), if_neg hlow, if_pos le_rfl,
    UnpackedFloat.mul]
  simp only [hbits, Nat.shiftLeft_eq, Int.toNat_zero, pow_zero, mul_one, add_zero]
  rfl

/-- Every word fits a float. -/
theorem isSome_toFloat?_ofNat {n : Nat} (hn : n < 2 ^ 64) : (ofNat n).toFloat?.isSome = true := by
  obtain rfl | hpos := Nat.eq_zero_or_pos n
  · rw [ofNat, toFloat?_zero]
    rfl
  obtain hsmall | hlarge := Nat.lt_or_ge n (2 ^ 53)
  · obtain ⟨a, c, hc, -, hval, -⟩ := view_toFloat hpos hsmall
    have hnear : Near a c (n * 10 ^ (0 : Int)) := by
      rw [zpow_zero, mul_one, ← hval]
      exact near_self
    rw [ofNat, toFloat?_near hpos hc hnear]
    rfl
  · have hlog := (Nat.log2_lt hpos.ne').mpr hn
    have hshift := log2_mul_two_pow hpos 53
    obtain ⟨m, q, hc, hround⟩ :=
      exists_round (M := n * 2 ^ 53) (E := -53) (by omega) (by omega) (by omega) .positive
    have hval : Float.ofScientific n (decide ((0 : Int) < 0)) (0 : Int).natAbs =
        stored (.finite .positive m q hc.pos) := by
      unfold Float.ofScientific
      rw [dif_neg (fun h => by omega)]
      exact congrArg stored ((ofScientific_nat hpos).trans hround)
    have hlen : (toString n).length ≤ 20 := (Nat.length_repr_le_iff (by norm_num)).mpr (by omega)
    have hfinite : (Float.ofScientific n (decide ((0 : Int) < 0)) (0 : Int).natAbs).isFinite =
        true := by
      rw [hval]
      exact isFinite_stored hc _
    rw [ofNat, toFloat?_eq hpos (by omega) (by omega) hfinite]
    rfl

theorem isFinite_neg {x : Float} (hx : x.isFinite = true) : (-x).isFinite = true := by
  rw [neg_float]
  obtain ⟨s, hview, -⟩ | ⟨s, m, q, hc, hview, -⟩ := view_cases hx
  · rw [hview]
    change (view (stored (.zero (-s)))).isFinite = true
    rw [view_stored_zero]
    rfl
  · rw [hview]
    exact isFinite_stored hc (-s)

theorem isFinite_of_toFloat? {l : Numeral} {x : Float} (h : l.toFloat? = some x) :
    x.isFinite = true := by
  unfold toFloat? at h
  extract_lets size y at h
  split at h
  case isTrue hy =>
    cases h
    split
    · exact isFinite_neg hy
    · exact hy
  case isFalse => contradiction

end ComplementarityQP.Numeral
