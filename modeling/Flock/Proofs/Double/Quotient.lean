import Flock.Proofs.Double.Exact

/-!
# Quotients of doubles

A quotient of whole numbers is rounded by its whole part and by what is known of the rest, which
comes to the same as rounding the exact number (`RoundsTo`, `roundsTo_quotient`). Rounding keeps
the order, so a greater double has a greater quotient by the same positive one (`div_le_div`), and
the quotient rounded up to a whole number is no smaller either (`ceil?_div_le`).
-/

namespace Flock

namespace Double

open Float.Model Float.Model.UnpackedFloat

variable {x y c : Float} {s : Sign} {a b m n r : Nat} {e f t : Int} {hm : 0 < m} {hn : 0 < n}

/-- The whole number nearest to a number, the even one of two that are equally near. -/
def halfEven (q : ℚ) : Int :=
  if Int.fract q < 1 / 2 then ⌊q⌋
  else if 1 / 2 < Int.fract q then ⌊q⌋ + 1
  else ⌊q⌋ + ⌊q⌋ % 2

theorem floor_le_halfEven (q : ℚ) : ⌊q⌋ ≤ halfEven q := by
  unfold halfEven
  split_ifs <;> omega

theorem halfEven_le (q : ℚ) : halfEven q ≤ ⌊q⌋ + 1 := by
  unfold halfEven
  split_ifs <;> omega

theorem halfEven_mono : Monotone halfEven := by
  intro p q h
  rcases (Int.floor_le_floor h).lt_or_eq with hlt | heq
  · exact (halfEven_le p).trans ((Int.add_one_le_of_lt hlt).trans (floor_le_halfEven q))
  · have hfract : Int.fract p ≤ Int.fract q := by
      rw [Int.fract, Int.fract, heq]
      exact sub_le_sub_right h _
    unfold halfEven
    rw [heq]
    split_ifs <;> first | omega | (exfalso; linarith)

/-- A quotient of whole numbers is rounded to the nearest one. -/
theorem roundedMantissa_quotient (a k : Nat) (hb : 0 < b) :
    ((ExtendedMantissa.ofMantissaAndAccuracy (a / b) (accuracyOfFraction (a % b) b) >>>
      k).roundedMantissa : Int) = halfEven ((a : ℚ) / (b * 2 ^ k : Nat)) := by
  have hpos : 0 < b * 2 ^ k := Nat.mul_pos hb (Nat.two_pow_pos k)
  rw [shift_quotient a k hb, roundedMantissa_mk, halfEven, Rat.floor_natCast_div_natCast,
    Int.fract_div_natCast_eq_div_natCast_mod]
  generalize b * 2 ^ k = last at hpos
  have hlast : (0 : ℚ) < last := Nat.cast_pos.mpr hpos
  have hless : ((a % last : Nat) : ℚ) / last < 1 / 2 ↔ 2 * (a % last) < last := by
    rw [div_lt_div_iff₀ hlast two_pos]
    norm_cast
    omega
  have hmore : 1 / 2 < ((a % last : Nat) : ℚ) / last ↔ last < 2 * (a % last) := by
    rw [div_lt_div_iff₀ two_pos hlast]
    norm_cast
    omega
  simp only [hless, hmore, decide_eq_true_eq]
  split_ifs <;> omega

/-- The exponent that a positive number is rounded at, and the mantissa that it is rounded to. The
number has 53 digits from this exponent on, or fewer if the exponent is the least one. -/
structure RoundsTo (v : ℚ) (r : Nat) (t : Int) : Prop where
  least : -1074 ≤ t
  lt : v < 2 ^ (t + 53)
  le : t ≠ -1074 → 2 ^ (t + 52) ≤ v
  nearest : (r : Int) = halfEven (v / 2 ^ t)

/-- After the first shift the mantissa is rounded, and after the second one it is done. -/
theorem roundWithAccuracy_eq_carry (s : Sign) (accuracy : Accuracy) (h : e ≤ target n e)
    (hr : (ExtendedMantissa.ofMantissaAndAccuracy n accuracy >>>
      (target n e - e).toNat).roundedMantissa = r) (hfits : r ≤ 2 ^ 53) :
    roundWithAccuracy .binary64 s n e accuracy = carry s r (target n e) := by
  have hexponent : e + (target n e - e).toNat = target n e := by omega
  have hfirst : shiftToTargetExponent .binary64 n e accuracy =
      (ExtendedMantissa.ofMantissaAndAccuracy n accuracy >>> (target n e - e).toNat,
        target n e) := by
    rw [shiftToTargetExponent, targetExponent_eq, shiftToExponent, hexponent]
  rw [carry, ← assemble_shift s hfits (le_target n e), roundWithAccuracy, hfirst]
  simp only [hr]

theorem roundedMantissa_quotient_le (a : Nat) (hb : 0 < b) (h : e ≤ target (a / b) e) :
    (ExtendedMantissa.ofMantissaAndAccuracy (a / b) (accuracyOfFraction (a % b) b) >>>
      (target (a / b) e - e).toNat).roundedMantissa ≤ 2 ^ 53 := by
  have hfloor := floorAt_lt (a / b) e
  have hnearest := roundedMantissa_quotient a (target (a / b) e - e).toNat hb
  have hhigh := halfEven_le ((a : ℚ) / (b * 2 ^ (target (a / b) e - e).toNat : Nat))
  rw [floorAt, Int.toNat_of_nonpos (by omega : e - target (a / b) e ≤ 0), Nat.pow_zero,
    Nat.mul_one, Nat.div_div_eq_div_mul] at hfloor
  rw [Rat.floor_natCast_div_natCast] at hhigh
  omega

/-- A quotient of whole numbers, times a power of two, is rounded by its whole part and by what is
known of the rest, if the whole part has 53 digits or the exponent is small enough. -/
theorem roundsTo_quotient (s : Sign) (a : Nat) (hb : 0 < b) (h : e ≤ -1074 ∨ 2 ^ 52 ≤ a / b) :
    ∃ r t,
      roundWithAccuracy .binary64 s (a / b) e (accuracyOfFraction (a % b) b) = carry s r t ∧
        RoundsTo (a / b * 2 ^ e) r t := by
  have hleast := le_target (a / b) e
  have hlog : e ≤ -1074 ∨ 52 ≤ (a / b).log2 :=
    h.imp_right fun hlarge => (Nat.le_log2 (by omega)).mpr hlarge
  have hle : e ≤ target (a / b) e := by
    unfold target at hleast ⊢
    omega
  obtain ⟨k, hk⟩ : ∃ k : Nat, target (a / b) e - e = k :=
    ⟨_, (Int.toNat_of_nonneg (by omega)).symm⟩
  refine ⟨_, _, roundWithAccuracy_eq_carry s _ hle rfl (roundedMantissa_quotient_le a hb hle),
    hleast, ?_, fun hne => ?_, ?_⟩
  · have hwhole : (a : ℚ) / b < 2 ^ ((a / b).log2 + 1) := by
      rw [div_lt_iff₀' (Nat.cast_pos.mpr hb)]
      exact_mod_cast (Nat.lt_mul_div_succ a hb).trans_le (Nat.mul_le_mul_left b Nat.lt_log2_self)
    calc (a : ℚ) / b * 2 ^ e < 2 ^ ((a / b).log2 + 1) * 2 ^ e := by gcongr
      _ = 2 ^ (((a / b).log2 + 1 : Nat) + e) := by rw [zpow_add₀ two_ne_zero, zpow_natCast]
      _ ≤ 2 ^ (target (a / b) e + 53) := by
          refine zpow_le_zpow_right₀ one_le_two ?_
          unfold target
          omega
  · have hdigits : target (a / b) e = (a / b).log2 + e - 52 ∧ a / b ≠ 0 := by
      refine ⟨by unfold target at hne ⊢; omega, fun hzero => ?_⟩
      rw [hzero, target, Nat.log2_zero] at hne
      omega
    calc (2 : ℚ) ^ (target (a / b) e + 52) = 2 ^ (a / b).log2 * 2 ^ e := by
          rw [← zpow_natCast, ← zpow_add₀ two_ne_zero, hdigits.1]
          ring_nf
      _ ≤ (a / b : Nat) * 2 ^ e := by
          gcongr
          exact_mod_cast Nat.log2_self_le hdigits.2
      _ ≤ a / b * 2 ^ e := by
          gcongr
          exact Nat.cast_div_le
  · rw [roundedMantissa_quotient a _ hb, hk, Int.toNat_natCast, mul_div_assoc,
      ← zpow_sub₀ two_ne_zero, show e - target (a / b) e = -k by omega, zpow_neg, zpow_natCast]
    push_cast
    rw [div_mul_eq_div_div, div_eq_mul_inv (a / b : ℚ)]

namespace RoundsTo

variable {v w : ℚ} {q : Nat} {u : Int}

theorem digits (h : RoundsTo v r t) : t = -1074 ∨ 2 ^ 52 ≤ r := by
  refine (em _).imp_right fun hne => ?_
  have hlarge : (2 ^ 52 : Int) ≤ ⌊v / 2 ^ t⌋ := by
    rw [Int.le_floor, le_div_iff₀ (by positivity)]
    rw [Int.cast_pow, Int.cast_ofNat, ← zpow_natCast, ← zpow_add₀ two_ne_zero, add_comm]
    exact h.le hne
  have hfloor := floor_le_halfEven (v / 2 ^ t)
  have hnearest := h.nearest
  omega

theorem fits (h : RoundsTo v r t) : r ≤ 2 ^ 53 := by
  have hsmall : ⌊v / 2 ^ t⌋ < (2 ^ 53 : Int) := by
    rw [Int.floor_lt, div_lt_iff₀ (by positivity)]
    rw [Int.cast_pow, Int.cast_ofNat, ← zpow_natCast, ← zpow_add₀ two_ne_zero, add_comm]
    exact h.lt
  have hhigh := halfEven_le (v / 2 ^ t)
  have hnearest := h.nearest
  omega

/-- A greater number is rounded at no smaller exponent, and at the same one to no smaller
mantissa. -/
theorem lex (h : RoundsTo v r t) (h' : RoundsTo w q u) (hle : v ≤ w) :
    t < u ∨ t = u ∧ r ≤ q := by
  rcases lt_trichotomy t u with hlt | rfl | hgt
  · exact .inl hlt
  · have hmono : halfEven (v / 2 ^ t) ≤ halfEven (w / 2 ^ t) :=
      halfEven_mono (div_le_div_of_nonneg_right hle (by positivity))
    rw [← h.nearest, ← h'.nearest] at hmono
    exact .inr ⟨rfl, by omega⟩
  · have hleast := h'.least
    have hlow := (h.le (by omega)).trans_lt (hle.trans_lt h'.lt)
    have hless := (zpow_lt_zpow_iff_right₀ one_lt_two).mp hlow
    omega

end RoundsTo

theorem rank_assemble (hlt : r < 2 ^ 53) (ht : -1074 ≤ t) (hdigits : t = -1074 ∨ 2 ^ 52 ≤ r) :
    rank (ofParts (assemble .positive r t)) =
      if t ≤ 971 then (t + 1074).toNat * 2 ^ 53 + r else 2 ^ 64 - 1 := by
  rcases Nat.eq_zero_or_pos r with rfl | hr
  · obtain rfl : t = -1074 := by omega
    rw [rank, parts_ofParts_assemble_zero]
    rfl
  · rw [rank, parts_ofParts_assemble hr hlt ht hdigits]
    split <;> rfl

theorem assemble_le_assemble {q : Nat} {u : Int} (hr : r < 2 ^ 53) (hq : q < 2 ^ 53)
    (ht : -1074 ≤ t) (hu : -1074 ≤ u) (hdigits : t = -1074 ∨ 2 ^ 52 ≤ r)
    (hdigits' : u = -1074 ∨ 2 ^ 52 ≤ q) (hlex : t < u ∨ t = u ∧ r ≤ q) :
    ofParts (assemble .positive r t) ≤ ofParts (assemble .positive q u) := by
  rw [le_iff_rank (nonneg_ofParts_assemble hr ht hdigits) (nonneg_ofParts_assemble hq hu hdigits'),
    rank_assemble hr ht hdigits, rank_assemble hq hu hdigits']
  split_ifs <;> omega

/-- Rounding keeps the order of positive numbers. -/
theorem RoundsTo.carry_le_carry {v w : ℚ} {q : Nat} {u : Int} (h : RoundsTo v r t)
    (h' : RoundsTo w q u) (hle : v ≤ w) :
    ofParts (carry .positive r t) ≤ ofParts (carry .positive q u) := by
  have hlex := h.lex h' hle
  have hr := h.fits
  have hq := h'.fits
  have ht := h.least
  have hu := h'.least
  have hdigits := h.digits
  have hdigits' := h'.digits
  unfold carry
  split_ifs
  · exact assemble_le_assemble ‹_› ‹_› ht hu hdigits hdigits' hlex
  · exact assemble_le_assemble ‹_› (by decide) ht (by omega) hdigits (.inr le_rfl) (by omega)
  · exact assemble_le_assemble (by decide) ‹_› (by omega) hu (.inr le_rfl) hdigits' (by omega)
  · exact assemble_le_assemble (by decide) (by decide) (by omega) (by omega) (.inr le_rfl)
      (.inr le_rfl) (by omega)

theorem RoundsTo.nonneg_carry {v : ℚ} (h : RoundsTo v r t) :
    0 ≤ ofParts (carry .positive r t) := by
  have ht := h.least
  unfold carry
  split_ifs with hr
  · exact nonneg_ofParts_assemble hr ht h.digits
  · exact nonneg_ofParts_assemble (by decide) (by omega) (.inr le_rfl)

/-! The quotient of a double by a positive one. -/

theorem div_eq (x y : Float) : x / y = ofParts (.div .binary64 (parts x) (parts y)) := rfl

/-- The exponent that a quotient is computed at. -/
def quotientExponent (m : Nat) (e : Int) (n : Nat) (f : Int) : Int :=
  min (e - f) (max (m.log2 + e - (n.log2 + f) - 53) (-1074))

theorem divCore_eq (m : Nat) (e : Int) (n : Nat) (f : Int) :
    divCore .binary64 m e n f =
      (m <<< (e - f - quotientExponent m e n f).toNat / n, quotientExponent m e n f,
        accuracyOfFraction (m <<< (e - f - quotientExponent m e n f).toNat % n) n) := by
  have hexponent : min (e - f)
      (Format.binary64.targetExponent (totalExponent m e - totalExponent n f)) =
      quotientExponent m e n f := by
    have hdigits : (Format.binary64.mantissaBits : Int) = 53 := rfl
    have hleast : Format.binary64.minExponent = -1074 := rfl
    simp only [Format.targetExponent, totalExponent, quotientExponent, hdigits, hleast]
    omega
  rw [divCore, hexponent]

/-- The whole part of a quotient has 53 digits, if its exponent is not too small. -/
theorem quotientExponent_spec (hm : 0 < m) (hn : 0 < n) :
    quotientExponent m e n f ≤ -1074 ∨
      2 ^ 52 ≤ m <<< (e - f - quotientExponent m e n f).toNat / n := by
  refine (le_or_gt _ _).imp_right fun hlarge => ?_
  have hshift : n.log2 + 53 ≤ m.log2 + (e - f - quotientExponent m e n f).toNat := by
    unfold quotientExponent at hlarge ⊢
    omega
  rw [Nat.le_div_iff_mul_le hn, Nat.shiftLeft_eq]
  calc 2 ^ 52 * n ≤ 2 ^ 52 * 2 ^ (n.log2 + 1) := Nat.mul_le_mul_left _ Nat.lt_log2_self.le
    _ = 2 ^ (n.log2 + 53) := by rw [← Nat.pow_add, Nat.add_comm, Nat.add_assoc]
    _ ≤ 2 ^ (m.log2 + (e - f - quotientExponent m e n f).toNat) :=
        Nat.pow_le_pow_right two_pos hshift
    _ = 2 ^ m.log2 * 2 ^ (e - f - quotientExponent m e n f).toNat := Nat.pow_add ..
    _ ≤ m * 2 ^ (e - f - quotientExponent m e n f).toNat :=
        Nat.mul_le_mul_right _ (Nat.log2_self_le hm.ne')

/-- The quotient has the sign of the dividend, and the quotient of what the two are worth without
their signs is rounded. -/
theorem div_finite (hx : parts x = .finite s m e hm) (hy : parts y = .finite .positive n f hn) :
    ∃ r t, x / y = ofParts (carry s r t) ∧ RoundsTo (m * 2 ^ e / value y) r t := by
  obtain ⟨r, t, hround, hto⟩ := roundsTo_quotient s
    (m <<< (e - f - quotientExponent m e n f).toNat) hn (quotientExponent_spec hm hn)
  have hvalue : ((m <<< (e - f - quotientExponent m e n f).toNat : Nat) : ℚ) / n *
      2 ^ quotientExponent m e n f = m * 2 ^ e / value y := by
    have hle : quotientExponent m e n f ≤ e - f := min_le_left _ _
    obtain ⟨k, hk⟩ : ∃ k : Nat, e - f - quotientExponent m e n f = k :=
      ⟨_, (Int.toNat_of_nonneg (by omega)).symm⟩
    have hsum : e = f + (quotientExponent m e n f + k) := by omega
    rw [value_finite hy, hk, Int.toNat_natCast, Nat.shiftLeft_eq]
    conv_rhs => rw [hsum]
    have hpos : (0 : ℚ) < n := Nat.cast_pos.mpr hn
    rw [zpow_add₀ two_ne_zero, zpow_add₀ two_ne_zero, zpow_natCast]
    push_cast
    field_simp
  refine ⟨r, t, ?_, hvalue ▸ hto⟩
  have hsign : s / .positive = s := by cases s <;> rfl
  rw [div_eq, hx, hy, UnpackedFloat.div, divCore_eq, hsign]
  exact congrArg ofParts hround

/-! Quotients by a positive number keep the order. -/

theorem div_of_parts_zero (hx : parts x = .zero s) (hy : parts y = .finite .positive n f hn) :
    parts (x / y) = .zero (s / .positive) := by
  rw [div_eq, hx, hy]
  exact parts_ofParts_zero _

theorem div_of_parts_infinity (hx : parts x = .infinity s)
    (hy : parts y = .finite .positive n f hn) : parts (x / y) = .infinity (s / .positive) := by
  rw [div_eq, hx, hy]
  exact parts_ofParts_infinity _

theorem exists_parts_of_pos (hc : c.isFinite) (h0 : 0 < c) :
    ∃ n f hn, parts c = .finite .positive n f hn := by
  replace hc : (parts c).isFinite := hc
  rcases pos_cases (pos_iff.mp h0) with hparts | hparts
  · exact hparts
  · rw [hparts] at hc
    exact absurd hc Bool.false_ne_true

theorem div_nonneg (hx : 0 ≤ x) (hc : c.isFinite) (h0 : 0 < c) : 0 ≤ x / c := by
  obtain ⟨n, f, hn, hparts⟩ := exists_parts_of_pos hc h0
  rcases nonneg_cases (nonneg_iff.mp hx) with ⟨s, hx⟩ | ⟨m, e, hm, hx⟩ | hx
  · rw [nonneg_iff, div_of_parts_zero hx hparts]
    rfl
  · obtain ⟨r, t, hdiv, hto⟩ := div_finite hx hparts
    rw [hdiv]
    exact hto.nonneg_carry
  · rw [nonneg_iff, div_of_parts_infinity hx hparts]
    rfl

theorem value_nonneg (h : 0 ≤ x) : 0 ≤ value x := by
  rcases nonneg_cases (nonneg_iff.mp h) with ⟨s, hx⟩ | ⟨m, e, hm, hx⟩ | hx
  · rw [value_zero hx]
  · rw [value_finite hx]
    positivity
  · rw [value, hx]

theorem isFinite_of_parts (hx : parts x = .finite s m e hm) : x.isFinite := by
  change (parts x).isFinite
  rw [hx]
  rfl

theorem isFinite_of_le (h0 : 0 ≤ x) (h : x ≤ y) (hy : y.isFinite) : x.isFinite := by
  change (parts x).isFinite
  replace hy : (parts y).isFinite := hy
  rcases nonneg_cases (nonneg_iff.mp h0) with ⟨s, hx⟩ | ⟨m, e, hm, hx⟩ | hx
  · rw [hx]
    rfl
  · rw [hx]
    rfl
  · rw [le_iff, hx] at h
    cases hpy : parts y with
    | infinity t =>
        rw [hpy] at hy
        exact absurd hy Bool.false_ne_true
    | _ =>
        rw [hpy] at h
        exact absurd h Bool.false_ne_true

/-- Doubles of one rank are both zero, or they have the same parts. -/
theorem value_eq_of_rank_eq (h0 : 0 ≤ x) (h0' : 0 ≤ y) (h : rank x = rank y) :
    value x = value y := by
  have hcanonical := canonical_parts x
  have hcanonical' := canonical_parts y
  unfold rank at h
  rcases nonneg_cases (nonneg_iff.mp h0) with ⟨s, hx⟩ | ⟨m, e, hm, hx⟩ | hx <;>
    rcases nonneg_cases (nonneg_iff.mp h0') with ⟨t, hy⟩ | ⟨n, f, hn, hy⟩ | hy <;>
    rw [hx, hy] at h
  · rw [value_zero hx, value_zero hy]
  · exact absurd h (Nat.add_pos_right _ hn).ne
  · exact absurd h (by decide : 0 < 2 ^ 64 - 1).ne
  · exact absurd h (Nat.add_pos_right _ hm).ne'
  · rw [hx] at hcanonical
    rw [hy] at hcanonical'
    obtain ⟨hlt, hlow, -, -⟩ := hcanonical
    obtain ⟨hlt', hlow', -, -⟩ := hcanonical'
    rw [height_finite, height_finite] at h
    obtain ⟨rfl, rfl⟩ : e = f ∧ m = n := by omega
    rw [value_finite hx, value_finite hy]
  · rw [hx] at hcanonical
    exact absurd h (height_finite_lt hcanonical).ne
  · exact absurd h (by decide : 0 < 2 ^ 64 - 1).ne'
  · rw [hy] at hcanonical'
    exact absurd h (height_finite_lt hcanonical').ne'
  · rw [value, value, hx, hy]

/-- The value of what is at most a finite double is no greater. -/
theorem value_le_value (h0 : 0 ≤ x) (h : x ≤ y) (hy : y.isFinite) : value x ≤ value y := by
  have h0' := nonneg_of_le h0 h
  rw [le_iff_rank h0 h0'] at h
  rcases lt_or_eq_of_le h with hlt | heq
  · exact (value_lt_value h0 ((lt_iff_rank h0 h0').mpr hlt) hy).le
  · exact (value_eq_of_rank_eq h0 h0' heq).le

/-- A greater number has the greater quotient. -/
theorem div_le_div (hx : 0 ≤ x) (h : x ≤ y) (hc : c.isFinite) (h0 : 0 < c) :
    x / c ≤ y / c := by
  have hy := nonneg_of_le hx h
  obtain ⟨n, f, hn, hparts⟩ := exists_parts_of_pos hc h0
  rcases zero_or_pos hx with ⟨s, hzero⟩ | hpos
  · rw [le_iff_rank (div_nonneg hx hc h0) (div_nonneg hy hc h0), rank,
      div_of_parts_zero hzero hparts]
    exact Nat.zero_le _
  rcases pos_cases (pos_iff.mp (pos_of_le hpos h)) with ⟨k, g, hk, hpy⟩ | hpy
  · have hfinite : y.isFinite := isFinite_of_parts hpy
    have hvalue := value_le_value hx h hfinite
    obtain ⟨m, e, hm, hpx⟩ := exists_parts_of_pos (isFinite_of_le hx h hfinite) hpos
    obtain ⟨r, t, hdiv, hto⟩ := div_finite hpx hparts
    obtain ⟨q, u, hdiv', hto'⟩ := div_finite hpy hparts
    rw [← value_finite hpx] at hto
    rw [← value_finite hpy] at hto'
    rw [hdiv, hdiv']
    exact hto.carry_le_carry hto' (div_le_div_of_nonneg_right hvalue (value_nonneg (le_of_lt h0)))
  · have hlt := rank_lt (x / c)
    rw [le_iff_rank (div_nonneg hx hc h0) (div_nonneg hy hc h0), rank.eq_1 (y / c),
      div_of_parts_infinity hpy hparts]
    exact Nat.le_pred_of_lt hlt

theorem ceil?_div_nonneg {span : Int} (hx : 0 ≤ x) (hc : c.isFinite) (h0 : 0 < c)
    (hspan : Scalar.ceil? (x / c) = some span) : 0 ≤ span := by
  obtain ⟨-, rfl⟩ := ceil?_eq_some_iff.mp hspan
  exact Int.ceil_nonneg (value_nonneg (div_nonneg hx hc h0))

/-- The whole number that a quotient is rounded up to is no smaller for a greater number. -/
theorem ceil?_div_le {span : Int} (hx : 0 ≤ x) (h : x ≤ y) (hc : c.isFinite) (h0 : 0 < c)
    (hspan : Scalar.ceil? (y / c) = some span) :
    ∃ less, Scalar.ceil? (x / c) = some less ∧ 0 ≤ less ∧ less ≤ span := by
  obtain ⟨hfinite, rfl⟩ := ceil?_eq_some_iff.mp hspan
  have hnonneg := div_nonneg hx hc h0
  have hle := div_le_div hx h hc h0
  exact ⟨⌈value (x / c)⌉, ceil?_eq_some_iff.mpr ⟨isFinite_of_le hnonneg hle hfinite, rfl⟩,
    Int.ceil_nonneg (value_nonneg hnonneg), Int.ceil_mono (value_le_value hnonneg hle hfinite)⟩

end Double

end Flock
