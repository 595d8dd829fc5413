import Flock.Proofs.Double.Magnitude

/-!
# Differences that stay finite

The difference of two doubles is finite if both of them are below `2 ^ 1023` in magnitude
(`isFinite_sub`). For a range that reaches as far below zero as above it there is no
better bound (`isFinite_sub_neg_iff`).
-/

namespace Flock

namespace Double

open Float.Model Float.Model.UnpackedFloat

variable {x y : Float} {m : Nat} {e : Int} {hm : 0 < m}

/-- The greatest power of two among the doubles, `2 ^ 1023`. -/
def greatestPower : Float := Float.ofBits 0x7fe0000000000000

theorem parts_greatestPower :
    parts greatestPower = .finite .positive (2 ^ 52) 971 (by decide) := rfl

theorem lt_greatestPower_of_le_zero (h0 : 0 ≤ x) (h : x ≤ 0) : x < greatestPower :=
  (lt_iff_rank h0 (by decide +kernel)).mpr
    (((le_iff_rank h0 zero_le_zero).mp h).trans_lt (by decide +kernel))

theorem abs_lt_greatestPower_iff : x.abs < greatestPower ↔ UpTo 970 x :=
  abs_lt_iff_upTo parts_greatestPower (by decide)

/-- The difference of doubles below `2 ^ 1023` in magnitude is finite. -/
theorem isFinite_sub (hx : x.abs < greatestPower) (hy : y.abs < greatestPower) :
    (x - y).isFinite := by
  rw [abs_lt_greatestPower_iff] at hx
  rw [← abs_neg, abs_lt_greatestPower_iff] at hy
  rw [sub_eq_add_neg]
  refine isFinite_add_of_lt (hx.isFinite (by decide)) (hy.isFinite (by decide)) ?_
  intro s m e hm t n f hn hpx hpy
  have he := hx.le_of_parts hpx
  have hf := hy.le_of_parts hpy
  have hk : (971 - min e f).toNat = (970 - min e f).toNat + 1 := by omega
  have hpos : 0 < 2 ^ (970 - min e f).toNat := Nat.two_pow_pos _
  have hleft := shiftLeft_le (lt_of_parts hpx).1 he (min e f)
  have hright := shiftLeft_le (lt_of_parts hpy).1 hf (min e f)
  have hsum := natAbs_apply_add_apply s t (m <<< (e - min e f).toNat) (n <<< (f - min e f).toNat)
  rw [hk, Nat.pow_succ]
  omega

theorem isFinite_sub_neg_of_lt (h0 : 0 ≤ x) (h : x < greatestPower) : (x - -x).isFinite := by
  have hlt : x.abs < greatestPower := by
    rw [nonneg_iff] at h0
    rw [lt_iff, parts_greatestPower] at h ⊢
    rw [parts_abs]
    rcases nonneg_cases h0 with ⟨s, hx⟩ | ⟨m, e, hm, hx⟩ | hx
    all_goals
      rw [hx] at h ⊢
      exact h
  exact isFinite_sub hlt (by rwa [abs_neg])

/-- The width of a range that reaches as far below zero as above it. -/
theorem sub_neg_self (hx : parts x = .finite .positive m e hm) :
    x - -x = ofParts (.round .binary64 .positive (2 * m) e) := by
  rw [sub_neg_eq_add, add_finite hx hx, sumMantissa, min_self, sub_self, Int.toNat_zero,
    Nat.shiftLeft_zero, Nat.two_mul]

/-- A range that reaches as far below zero as above it is finite if and only if its ends
are below `2 ^ 1023` in magnitude. -/
theorem isFinite_sub_neg_iff (h0 : 0 ≤ x) (hx : x.isFinite) :
    (x - -x).isFinite ↔ x < greatestPower := by
  refine ⟨fun h => ?_, isFinite_sub_neg_of_lt h0⟩
  by_contra hge
  have hcanonical := canonical_parts x
  have hfinite : (parts x).isFinite := hx
  rw [lt_iff, parts_greatestPower] at hge
  rcases nonneg_cases (nonneg_iff.mp h0) with ⟨s, hzero⟩ | ⟨m, e, hm, hparts⟩ | hinfinity
  · exact hge (by rw [hzero]; rfl)
  · rw [hparts, finite_lt_finite] at hge
    rw [hparts] at hcanonical
    obtain ⟨-, -, hhigh, hdigits⟩ := hcanonical
    obtain rfl : e = 971 := by omega
    have hdouble := sub_neg_self hparts
    have hover := not_isFinite_round (s := .positive) (n := 2 * m) (e := 971) (k := 0) (by decide)
      (by omega)
    rw [← hdouble] at hover
    exact absurd h (by rw [Float.isFinite]; exact Bool.eq_false_iff.mp hover)
  · rw [hinfinity] at hfinite
    exact absurd hfinite Bool.false_ne_true

end Double

end Flock
