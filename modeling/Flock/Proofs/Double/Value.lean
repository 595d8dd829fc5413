import Flock.Proofs.Double.Rounding

/-!
# Values of doubles

A finite double stands for a rational number (`value`). Only by it can be told whether a
sum makes a difference: adding a positive double `d` to another one can leave that as it
is only if it is worth `2 ^ 53 * d` at least (`two_pow_mul_value_le`).
-/

namespace Flock

namespace Double

open Float.Model Float.Model.UnpackedFloat

variable {x y d : Float} {s t : Sign} {m n : Nat} {e f : Int} {hm : 0 < m} {hn : 0 < n}
  {u : UnpackedFloat}

/-- The number that a finite double stands for. -/
def value (x : Float) : ℚ :=
  match parts x with
  | .finite s m e _ => (s.apply (m : Int) : Int) * 2 ^ e
  | _ => 0

theorem value_zero (hx : parts x = .zero s) : value x = 0 := by rw [value, hx]

theorem value_finite (hx : parts x = .finite .positive m e hm) : value x = m * 2 ^ e := by
  rw [value, hx]
  rfl

/-- Of two positive numbers the one with the greater exponent has the greater value. -/
theorem mul_two_pow_lt (h : Canonical (.finite .positive m e hm))
    (h' : Canonical (.finite .positive n f hn)) (hlt : e < f ∨ e = f ∧ m < n) :
    (m : ℚ) * 2 ^ e < n * 2 ^ f := by
  rcases hlt with hlt | ⟨rfl, hlt⟩
  · obtain ⟨hmlt, hlow, -, -⟩ := h
    obtain ⟨-, -, -, hdigits⟩ := h'
    have hless : (m : ℚ) < 2 ^ 53 := by exact_mod_cast hmlt
    have hge : (2 : ℚ) ^ 52 ≤ n := by
      have hdigits : 2 ^ 52 ≤ n := by omega
      exact_mod_cast hdigits
    calc (m : ℚ) * 2 ^ e < 2 ^ 53 * 2 ^ e := by gcongr
      _ = 2 ^ 52 * 2 ^ (e + 1) := by rw [zpow_add_one₀ two_ne_zero]; ring
      _ ≤ 2 ^ 52 * 2 ^ f := by gcongr <;> first | exact one_le_two | omega
      _ ≤ n * 2 ^ f := by gcongr
  · gcongr

/-- What is at most half of the last digit of a number is not worth more than a part of it. -/
theorem two_pow_mul_le (hn : 0 < n) (hlow : -1074 ≤ f) (hdigits : e = -1074 ∨ 2 ^ 52 ≤ m)
    (h : 2 * n <<< (f - min e f).toNat ≤ 2 ^ (e - min e f).toNat) :
    (2 : ℚ) ^ 53 * (n * 2 ^ f) ≤ m * 2 ^ e := by
  rw [Nat.shiftLeft_eq] at h
  have hlt : f < e := by
    by_contra hle
    have hnone : (e - min e f).toNat = 0 := by omega
    have hpos := Nat.mul_pos hn (Nat.two_pow_pos (f - min e f).toNat)
    rw [hnone] at h
    omega
  have hshift : (e - min e f).toNat = (e - f).toNat := by omega
  have hnone : (f - min e f).toNat = 0 := by omega
  rw [hshift, hnone, Nat.pow_zero, Nat.mul_one] at h
  have hsum : e = f + (e - f).toNat := by omega
  have hge : (2 : ℚ) ^ 52 ≤ m := by
    have hdigits : 2 ^ 52 ≤ m := by omega
    exact_mod_cast hdigits
  have hle : 2 * (n : ℚ) ≤ 2 ^ (e - f).toNat := by exact_mod_cast h
  calc (2 : ℚ) ^ 53 * (n * 2 ^ f) = 2 ^ 52 * (2 * n * 2 ^ f) := by ring
    _ ≤ 2 ^ 52 * (2 ^ (e - f).toNat * 2 ^ f) := by gcongr
    _ = 2 ^ 52 * 2 ^ e := by
        rw [mul_comm (2 ^ (e - f).toNat), ← zpow_natCast 2 (e - f).toNat, ← zpow_add₀ two_ne_zero,
          ← hsum]
    _ ≤ m * 2 ^ e := by gcongr

/-- Greater doubles have greater values, where they have any. -/
theorem value_lt_value (h0 : 0 ≤ x) (h : x < y) (hy : y.isFinite) : value x < value y := by
  have h0y := nonneg_of_lt h0 h
  have hcanonical := canonical_parts x
  have hcanonical' := canonical_parts y
  replace hy : (parts y).isFinite := hy
  rw [lt_iff] at h
  rcases nonneg_cases (nonneg_iff.mp h0y) with ⟨t, hpy⟩ | ⟨n, f, hn, hpy⟩ | hpy
  · rw [hpy] at h
    rcases nonneg_cases (nonneg_iff.mp h0) with ⟨s, hx⟩ | ⟨m, e, hm, hx⟩ | hx
    all_goals
      rw [hx] at h
      exact absurd h Bool.false_ne_true
  · rw [value_finite hpy]
    rw [hpy] at h hcanonical'
    rcases nonneg_cases (nonneg_iff.mp h0) with ⟨s, hx⟩ | ⟨m, e, hm, hx⟩ | hx
    · rw [value_zero hx]
      positivity
    · rw [hx, finite_lt_finite] at h
      rw [hx] at hcanonical
      rw [value_finite hx]
      exact mul_two_pow_lt hcanonical hcanonical' h
    · rw [hx] at h
      exact absurd h Bool.false_ne_true
  · rw [hpy] at hy
    exact absurd hy Bool.false_ne_true

theorem isFinite_of_lt (h0 : 0 ≤ x) (h : x < y) : x.isFinite := by
  change (parts x).isFinite
  rcases nonneg_cases (nonneg_iff.mp h0) with ⟨s, hx⟩ | ⟨m, e, hm, hx⟩ | hx
  · rw [hx]
    rfl
  · rw [hx]
    rfl
  · rw [lt_iff, hx] at h
    cases hy : parts y with
    | infinity t =>
        rw [hy] at h
        cases t <;> exact absurd h Bool.false_ne_true
    | _ =>
        rw [hy] at h
        exact absurd h Bool.false_ne_true

/-- What is left as it is by the addition of a positive double is worth `2 ^ 53` times as
much as that. -/
theorem two_pow_mul_value_le (h0 : 0 ≤ x) (hfinite : x.isFinite) (hd : 0 < d) (h : x + d = x) :
    2 ^ 53 * value d ≤ value x := by
  have hcanonical := canonical_parts x
  have hcanonical' := canonical_parts d
  replace hfinite : (parts x).isFinite := hfinite
  rcases nonneg_cases (nonneg_iff.mp h0) with ⟨s, hx⟩ | ⟨m, e, hm, hx⟩ | hx
  · rw [add_of_parts_zero hx hd] at h
    rw [pos_iff, h, hx] at hd
    exact absurd hd Bool.false_ne_true
  · rcases pos_cases (pos_iff.mp hd) with ⟨n, f, hn, hd⟩ | hd
    · rcases add_finite_eq_or_lt hx hd with ⟨-, hhalf⟩ | hlt
      · rw [hx] at hcanonical
        rw [hd] at hcanonical'
        obtain ⟨-, -, -, hdigits⟩ := hcanonical
        obtain ⟨-, hlow, -, -⟩ := hcanonical'
        rw [value_finite hx, value_finite hd]
        exact two_pow_mul_le hn hlow hdigits hhalf
      · rw [h, lt_iff, hx, finite_lt_finite] at hlt
        omega
    · have hsum := parts_add_infinity hx hd
      rw [h, hx] at hsum
      exact absurd hsum (by simp)
  · rw [hx] at hfinite
    exact absurd hfinite Bool.false_ne_true

/-! Products and sums that are not below zero. -/

theorem nonneg_ofParts_assemble {r : Nat} (hlt : r < 2 ^ 53) (he : -1074 ≤ e)
    (hdigits : e = -1074 ∨ 2 ^ 52 ≤ r) : 0 ≤ ofParts (assemble .positive r e) := by
  rw [nonneg_iff]
  rcases Nat.eq_zero_or_pos r with rfl | hr
  · rw [parts_ofParts_assemble_zero]
    rfl
  · rw [parts_ofParts_assemble hr hlt he hdigits]
    split <;> rfl

theorem Rounded.nonneg (hn : 0 < n) (h : Rounded .positive n e u) : 0 ≤ ofParts u := by
  have hleast := le_target n e
  cases h with
  | kept hlow _ hlt _ _ =>
      exact nonneg_ofParts_assemble hlt hleast (digits_of_floorAt_le hn hlow)
  | carried => exact nonneg_ofParts_assemble (by decide) (by omega) (.inr le_rfl)

theorem mul_eq (x y : Float) : x * y = ofParts (.mul .binary64 (parts x) (parts y)) := rfl

/-- The exponent of a product need not be lowered for it to be rounded. -/
theorem add_le_target (hx : parts x = .finite s m e hm) (hy : parts y = .finite t n f hn) :
    e + f ≤ target (m * n) (e + f) := by
  have hcanonical := canonical_parts x
  have hcanonical' := canonical_parts y
  rw [hx] at hcanonical
  rw [hy] at hcanonical'
  obtain ⟨-, hlow, -, hdigits⟩ := hcanonical
  obtain ⟨-, hlow', -, hdigits'⟩ := hcanonical'
  -- the product of two subnormal numbers has a small exponent, any other one 53 digits
  have hlog (hlarge : 2 ^ 52 ≤ m * n) : 52 ≤ (m * n).log2 :=
    (Nat.le_log2 (Nat.ne_of_gt (Nat.mul_pos hm hn))).mpr hlarge
  have hleft : m ≤ m * n := Nat.le_mul_of_pos_right m hn
  have hright : n ≤ m * n := Nat.le_mul_of_pos_left n hm
  unfold target
  omega

theorem mul_finite (hx : parts x = .finite s m e hm) (hy : parts y = .finite t n f hn) :
    x * y = ofParts (carry (s * t) (roundedAt (m * n) (e + f)) (target (m * n) (e + f))) := by
  rw [← roundWithAccuracy_eq (s * t) (m * n) (add_le_target hx hy), mul_eq, hx, hy]
  rfl

theorem mul_nonneg_of_pos (hx : 0 < x) (hy : 0 < y) : 0 ≤ x * y := by
  rcases pos_cases (pos_iff.mp hx) with ⟨m, e, hm, hx⟩ | hx <;>
    rcases pos_cases (pos_iff.mp hy) with ⟨n, f, hn, hy⟩ | hy
  · rw [mul_finite hx hy]
    exact (rounded_carry .positive (m * n) (e + f)).nonneg (Nat.mul_pos hm hn)
  all_goals
    have hinfinity : 0 ≤ ofParts (.infinity .positive) := by
      rw [nonneg_iff, parts_ofParts_infinity]
      rfl
    rw [mul_eq, hx, hy]
    exact hinfinity

theorem le_add_zero (hx : 0 ≤ x) (hy : parts y = .zero s) : x ≤ x + y := by
  have hself : x ≤ x := (le_iff_rank hx hx).mpr le_rfl
  rcases nonneg_cases (nonneg_iff.mp hx) with ⟨t, hparts⟩ | ⟨m, e, hm, hparts⟩ | hparts
  · obtain ⟨t', hsum⟩ : ∃ t', x + y = ofParts (.zero t') := by
      rw [add_eq, hparts, hy]
      cases t <;> cases s <;> exact ⟨_, rfl⟩
    rw [le_iff, hsum, hparts, parts_ofParts_zero]
    rfl
  all_goals
    have hsum : x + y = x := by
      rw [add_eq, hparts, hy]
      exact ofParts_eq hparts
    rwa [hsum]

theorem le_add_of_nonneg (hx : 0 ≤ x) (hy : 0 ≤ y) : x ≤ x + y := by
  rcases zero_or_pos hy with ⟨s, hparts⟩ | hpos
  · exact le_add_zero hx hparts
  · rcases add_eq_or_lt hx hpos with heq | hlt
    · rw [heq]
      exact (le_iff_rank hx hx).mpr le_rfl
    · exact le_of_lt hlt

end Double

end Flock
