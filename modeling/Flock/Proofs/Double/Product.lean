import Flock.Proofs.Double.Overflow

/-!
# Products with a factor of at most one

The components of headings and random fractions are at most 1 in magnitude (`AtMostOne`).
A product with such a factor has no greater exponent than the other factor
(`AtMostOne.upTo_mul`), so it is finite where that is. With 1 or -1 for the factor the
product is exact (`parts_mul_of_unit`).
-/

namespace Flock

namespace Double

open Float.Model Float.Model.UnpackedFloat

variable {x y : Float} {s t : Sign} {m n : Nat} {e f c : Int} {hm : 0 < m} {hn : 0 < n}

/-- Zero, or a number whose mantissa is at most the power of two that it is divided by. -/
def AtMostOne (x : Float) : Prop :=
  (∃ s, parts x = .zero s) ∨ ∃ s m e hm, parts x = .finite s m e hm ∧ e ≤ 0 ∧ m ≤ 2 ^ (-e).toNat

theorem parts_one : parts 1 = .finite .positive (2 ^ 52) (-52) (by decide) := rfl

theorem parts_neg_one : parts (-1) = .finite .negative (2 ^ 52) (-52) (by decide) := rfl

theorem le_two_pow_of_isLE (hlt : m < 2 ^ 53)
    (h : ((compare e (-52)).then (compare m (2 ^ 52))).isLE) : e ≤ 0 ∧ m ≤ 2 ^ (-e).toNat := by
  rcases lt_trichotomy e (-52) with hless | rfl | hmore
  · have hpow : 2 ^ 53 ≤ 2 ^ (-e).toNat := Nat.pow_le_pow_right (by decide) (by omega)
    omega
  · rw [compare_eq_iff_eq.mpr rfl] at h
    exact ⟨by decide, Nat.isLE_compare.mp h⟩
  · rw [compare_gt_iff_gt.mpr hmore] at h
    exact absurd h Bool.false_ne_true

theorem atMostOne_of_le (hlow : -1 ≤ x) (hhigh : x ≤ 1) : AtMostOne x := by
  rw [le_iff, parts_neg_one] at hlow
  rw [le_iff, parts_one] at hhigh
  cases hx : parts x with
  | notANumber =>
      rw [hx] at hlow
      exact absurd hlow Bool.false_ne_true
  | zero s => exact .inl ⟨s, hx⟩
  | infinity s =>
      rw [hx] at hlow hhigh
      cases s with
      | negative => exact absurd hlow Bool.false_ne_true
      | positive => exact absurd hhigh Bool.false_ne_true
  | finite s m e hm =>
      have hlt := (lt_of_parts hx).1
      rw [hx] at hlow hhigh
      refine .inr ⟨s, m, e, hm, hx, le_two_pow_of_isLE hlt ?_⟩
      cases s with
      | positive => exact hhigh
      | negative =>
          -- below zero the order is turned around
          have hswap : (((compare (-52) e).then (compare (2 ^ 52) m)).swap).isLE := hlow
          rwa [Ordering.swap_then, ← Std.OrientedCmp.eq_swap, ← Std.OrientedCmp.eq_swap] at hswap

theorem AtMostOne.isFinite (h : AtMostOne x) : x.isFinite := by
  change (parts x).isFinite
  rcases h with ⟨s, hx⟩ | ⟨s, m, e, hm, hx, -⟩
  all_goals
    rw [hx]
    rfl

/-- A product with zero is zero. -/
theorem parts_mul_of_zero (h : parts x = .zero s ∨ parts y = .zero s) (hx : x.isFinite)
    (hy : y.isFinite) : ∃ t, parts (x * y) = .zero t := by
  have hzero : ∃ t, x * y = ofParts (.zero t) := by
    rw [mul_eq]
    replace hx : (parts x).isFinite := hx
    replace hy : (parts y).isFinite := hy
    generalize parts x = u at h hx ⊢
    generalize parts y = v at h hy ⊢
    rcases h with rfl | rfl
    · cases v with
      | notANumber => exact absurd hy Bool.false_ne_true
      | infinity t => exact absurd hy Bool.false_ne_true
      | zero t => exact ⟨s * t, rfl⟩
      | finite t n f hn => exact ⟨s * t, rfl⟩
    · cases u with
      | notANumber => exact absurd hx Bool.false_ne_true
      | infinity t => exact absurd hx Bool.false_ne_true
      | zero t => exact ⟨t * s, rfl⟩
      | finite t n f hn => exact ⟨t * s, rfl⟩
  obtain ⟨t, hzero⟩ := hzero
  exact ⟨t, by rw [hzero, parts_ofParts_zero]⟩

/-- A factor of at most one makes no product greater than the other factor. -/
theorem AtMostOne.upTo_mul (h : AtMostOne x) (hy : UpTo c y) (hc : -1074 ≤ c) (hle : c ≤ 971) :
    UpTo c (x * y) := by
  have hxfinite := h.isFinite
  have hyfinite := hy.isFinite hle
  rcases h with ⟨s, hx⟩ | ⟨s, m, e, hm, hx, he, hmle⟩
  · exact .inl (parts_mul_of_zero (.inl hx) hxfinite hyfinite)
  rcases hy with ⟨t, hy⟩ | ⟨t, n, f, hn, hy, hf⟩
  · exact .inl (parts_mul_of_zero (.inr hy) hxfinite hyfinite)
  have hlt := (lt_of_parts hy).1
  rw [mul_finite hx hy]
  refine upTo_carry (k := (c - e - f).toNat) (Nat.mul_pos hm hn) hc hle (by omega) ?_
  have hpos : 0 < 2 ^ (c - e - f).toNat := Nat.two_pow_pos _
  have hproduct : m * n ≤ 2 ^ (c - e - f).toNat * (2 ^ 53 - 1) :=
    Nat.mul_le_mul (hmle.trans (Nat.pow_le_pow_right (by decide) (by omega))) (by omega)
  omega

/-- A product with 1 or -1 is exact. -/
theorem parts_mul_of_unit {hu : 0 < 2 ^ 52} (hx : parts x = .finite s (2 ^ 52) (-52) hu)
    (hy : parts y = .finite t n f hn) : parts (x * y) = .finite (s * t) n f hn := by
  have hcanonical := canonical_parts y
  rw [hy] at hcanonical
  obtain ⟨hlt, hlow, hhigh, hdigits⟩ := hcanonical
  have htarget : target (2 ^ 52 * n) (-52 + f) = f := by
    have hlog : (2 ^ 52 * n).log2 = n.log2 + 52 := by
      rw [Nat.mul_comm, ← Nat.shiftLeft_eq, log2_shiftLeft hn]
    have hle := target_of_lt hlt hlow
    have hlarge (h : 2 ^ 52 ≤ n) : 52 ≤ n.log2 := (Nat.le_log2 (Nat.ne_of_gt hn)).mpr h
    unfold target at hle ⊢
    omega
  have hdrop : (f - (-52 + f)).toNat = 52 := by omega
  have hnone : (-52 + f - f).toNat = 0 := by omega
  have hexact : IsExact (2 ^ 52 * n) (-52 + f) := by
    rw [IsExact, htarget, hdrop]
    exact Nat.dvd_mul_right _ _
  have hkept : roundedAt (2 ^ 52 * n) (-52 + f) = n := by
    rw [roundedAt_of_isExact hexact, floorAt, htarget, hdrop, hnone, Nat.pow_zero, Nat.mul_one,
      Nat.mul_div_cancel_left _ (Nat.two_pow_pos 52)]
  rw [mul_finite hx hy, htarget, hkept, carry, if_pos hlt,
    parts_ofParts_assemble hn hlt hlow hdigits, if_pos hhigh]

theorem mul_nonneg (hx : x.isFinite) (hy : y.isFinite) (h0x : 0 ≤ x) (h0y : 0 ≤ y) :
    0 ≤ x * y := by
  have nonneg_of_zero (h : ∃ t, parts (x * y) = .zero t) : 0 ≤ x * y := by
    obtain ⟨t, hzero⟩ := h
    rw [nonneg_iff, hzero]
    rfl
  rcases zero_or_pos h0x with ⟨s, hpx⟩ | hposx
  · exact nonneg_of_zero (parts_mul_of_zero (.inl hpx) hx hy)
  rcases zero_or_pos h0y with ⟨t, hpy⟩ | hposy
  · exact nonneg_of_zero (parts_mul_of_zero (.inr hpy) hx hy)
  exact mul_nonneg_of_pos hposx hposy

/-- The width of a range that reaches as far below zero as above it is not below zero. -/
theorem sub_neg_self_nonneg (h : 0 ≤ x) : 0 ≤ x - -x := by
  rw [sub_neg_eq_add]
  exact nonneg_of_le h (le_add_of_nonneg h h)

/-! Random fractions. -/

theorem toNat_shiftRight_lt (word : UInt64) : (word >>> 12).toNat < 2 ^ 52 := by
  rw [UInt64.toNat_shiftRight, Nat.shiftRight_eq_div_pow]
  exact Nat.div_lt_of_lt_mul word.toNat_lt

/-- The upper 52 bits of a word below the exponent of the doubles between 1 and 2. -/
theorem toBitVec_fraction (word : UInt64) :
    ((word >>> 12) ||| ((1023 : UInt64) <<< 52)).toBitVec =
      packComponents .binary64 .positive 1023#11 (BitVec.ofNat 52 (word >>> 12).toNat) := by
  have hexponent : ((1023 : UInt64) <<< 52).toNat = 1023 <<< 52 := rfl
  refine BitVec.eq_of_toNat_eq ?_
  change ((word >>> 12) ||| ((1023 : UInt64) <<< 52)).toNat =
    ((0#1 ++ 1023#11) ++ BitVec.ofNat 52 (word >>> 12).toNat).toNat
  rw [UInt64.toNat_or, hexponent, Nat.or_comm, BitVec.toNat_append, BitVec.toNat_ofNat,
    Nat.mod_eq_of_lt (toNat_shiftRight_lt word)]
  rfl

theorem parts_ofBits_fraction (word : UInt64) :
    parts (Float.ofBits ((word >>> 12) ||| ((1023 : UInt64) <<< 52))) =
      .finite .positive (2 ^ 52 + (word >>> 12).toNat) (-52)
        (Nat.add_pos_left (Nat.two_pow_pos 52) _) := by
  have hlt := toNat_shiftRight_lt word
  have hlog : (2 ^ 52 + (word >>> 12).toNat).log2 = 52 := (log2_eq_iff.mpr ⟨by omega, by omega⟩).1
  have hfraction : BitVec.ofNat 52 (2 ^ 52 + (word >>> 12).toNat) =
      BitVec.ofNat 52 (word >>> 12).toNat := by
    rw [BitVec.ofNat_add]
    exact BitVec.zero_add _
  have hbits : ((word >>> 12) ||| ((1023 : UInt64) <<< 52)).toBitVec =
      UnpackedFloat.pack .binary64
        (.finite .positive (2 ^ 52 + (word >>> 12).toNat) (-52)
          (Nat.add_pos_left (Nat.two_pow_pos 52) _)) := by
    rw [toBitVec_fraction, pack_finite (by decide) (by decide), if_pos hlog, hfraction]
    rfl
  have hparts : parts (Float.ofBits ((word >>> 12) ||| ((1023 : UInt64) <<< 52))) =
      UnpackedFloat.unpack .binary64 ((word >>> 12) ||| ((1023 : UInt64) <<< 52)).toBitVec :=
    parts_ofParts (canonical_unpack _)
  rw [hparts, hbits]
  exact parts_ofParts (u := .finite .positive _ _ _)
    ⟨by omega, by decide, by decide, .inr (by omega)⟩

/-- A random fraction is zero, or a positive number below 1. -/
theorem fraction_cases (word : UInt64) : (∃ s, parts (fraction word) = .zero s) ∨
    ∃ m e hm, parts (fraction word) = .finite .positive m e hm ∧ e ≤ -53 := by
  have hlt := toNat_shiftRight_lt word
  have hsub := add_of_parts (parts_ofBits_fraction word) parts_neg_one
  rw [← sub_eq_add_neg, ← fraction, min_self, sub_self, Int.toNat_zero, Nat.shiftLeft_zero,
    Nat.shiftLeft_zero] at hsub
  generalize (word >>> 12).toNat = n at hlt hsub
  have hrest : Sign.positive.apply ((2 ^ 52 + n : Nat) : Int) +
      Sign.negative.apply ((2 ^ 52 : Nat) : Int) = n := by
    simp only [Sign.apply]
    omega
  rw [hrest] at hsub
  rcases Nat.eq_zero_or_pos n with rfl | hn
  · exact .inl ⟨.positive, by rw [hsub]; exact parts_ofParts_zero .positive⟩
  · right
    have hlog : n.log2 < 52 := (Nat.log2_lt (Nat.ne_of_gt hn)).mpr hlt
    have hlow : target n (-52) ≤ -53 := by
      unfold target
      omega
    have hleast := le_target n (-52)
    have hexact : IsExact n (-52) := by
      rw [IsExact, Int.toNat_of_nonpos (by omega)]
      exact one_dvd n
    have hfits := floorAt_lt n (-52)
    have hpos : 0 < floorAt n (-52) := by
      rw [floorAt, Int.toNat_of_nonpos (by omega : target n (-52) - -52 ≤ 0), Nat.pow_zero,
        Nat.div_one]
      exact Nat.mul_pos hn (Nat.two_pow_pos _)
    refine ⟨floorAt n (-52), target n (-52), hpos, ?_, hlow⟩
    rw [hsub, normalize_of_pos (by omega), Int.toNat_natCast, round_eq .positive hn,
      roundedAt_of_isExact hexact, carry, if_pos hfits,
      parts_ofParts_assemble hpos hfits hleast (digits_of_floorAt_le hn le_rfl), if_pos (by omega)]

theorem fraction_nonneg (word : UInt64) : 0 ≤ fraction word := by
  rw [nonneg_iff]
  rcases fraction_cases word with ⟨s, h⟩ | ⟨m, e, hm, h, -⟩
  all_goals
    rw [h]
    rfl

theorem atMostOne_fraction (word : UInt64) : AtMostOne (fraction word) := by
  refine (fraction_cases word).imp_right ?_
  rintro ⟨m, e, hm, h, he⟩
  have hlt := (lt_of_parts h).1
  have hpow : 2 ^ 53 ≤ 2 ^ (-e).toNat := Nat.pow_le_pow_right (by decide) (by omega)
  exact ⟨_, m, e, hm, h, by omega, by omega⟩

/-- A sample from a range that reaches as far below zero as above it is finite. -/
theorem isFinite_sample (word : UInt64) (hx : x.isFinite) (h0 : 0 ≤ x)
    (hwidth : (x - -x).isFinite) : (fraction word * (x - -x) + -x).isFinite := by
  have hfraction := atMostOne_fraction word
  have hproduct : (fraction word * (x - -x)).isFinite :=
    (hfraction.upTo_mul (isFinite_iff_upTo.mp hwidth) (by decide) le_rfl).isFinite le_rfl
  have hproduct0 : 0 ≤ fraction word * (x - -x) :=
    mul_nonneg hfraction.isFinite hwidth (fraction_nonneg word) (sub_neg_self_nonneg h0)
  exact isFinite_add_neg hproduct hx hproduct0 h0

end Double

namespace Scalar

open Double

theorem clampUnit_double (x : Float) : clampUnit x =
    if 1 < (if x < -1 then -1 else x) then 1 else if x < -1 then -1 else x := rfl

/-- A number is moved into `[-1, 1]`. -/
theorem atMostOne_clampUnit {x : Float} (h : x.isNaN = false) : AtMostOne (clampUnit x) := by
  have hleast : AtMostOne (-1) := .inr ⟨_, _, _, _, parts_neg_one, by decide, by decide⟩
  have hgreatest : AtMostOne 1 := .inr ⟨_, _, _, _, parts_one, by decide, by decide⟩
  rw [clampUnit_double]
  by_cases hlow : x < -1
  · rwa [if_pos hlow, if_neg (by decide +kernel)]
  · rw [if_neg hlow]
    split
    · exact hgreatest
    · next hhigh => exact atMostOne_of_le (le_of_not_lt h rfl hlow) (le_of_not_lt rfl h hhigh)

end Scalar

end Flock
