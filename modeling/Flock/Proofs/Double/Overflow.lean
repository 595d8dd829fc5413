import Flock.Proofs.Double.Width
import Flock.Proofs.Double.Value

/-!
# Sums that overflow

The last digit of the greatest doubles is worth `2 ^ 971`. A sum is rounded to a finite
double as long as it is not half of that above the greatest one. So any finite double can be
moved by less than `2 ^ 970` and stays finite (`isFinite_add`), and the greatest one cannot be
moved up by `2 ^ 970` or more (`not_isFinite_greatest_add`).
-/

namespace Flock

namespace Double

open Float.Model Float.Model.UnpackedFloat

variable {x y d : Float} {s : Sign} {m n : Nat} {e f : Int} {hm : 0 < m} {hn : 0 < n}

/-- Half of the last digit of the greatest doubles, `2 ^ 970`. -/
def halfLast : Float := Float.ofBits 0x7c90000000000000

/-- The greatest finite double, `2 ^ 1024 - 2 ^ 971`. -/
def greatest : Float := Float.ofBits 0x7fefffffffffffff

theorem parts_halfLast : parts halfLast = .finite .positive (2 ^ 52) 918 (by decide) := rfl

theorem parts_greatest : parts greatest = .finite .positive (2 ^ 53 - 1) 971 (by decide) := rfl

/-- What is below `2 ^ 970` in magnitude has a smaller exponent. -/
theorem abs_lt_halfLast_iff : x.abs < halfLast ↔ UpTo 917 x :=
  abs_lt_iff_upTo parts_halfLast (by decide)

theorem abs_zero_lt_halfLast : (0 : Float).abs < halfLast := by decide +kernel

theorem nonneg_abs (h : parts x ≠ .notANumber) : 0 ≤ x.abs := by
  rw [nonneg_iff, parts_abs]
  cases hx : parts x with
  | notANumber => exact absurd hx h
  | _ => rfl

theorem le_refl_abs (h : x.isFinite) : x.abs ≤ x.abs := by
  have h0 : 0 ≤ x.abs := nonneg_abs fun hx => by
    replace h : (parts x).isFinite := h
    rw [hx] at h
    exact Bool.false_ne_true h
  exact (le_iff_rank h0 h0).mpr le_rfl

theorem abs_lt_of_abs_le (h : x.abs ≤ y) (hy : y < d) : x.abs < d := by
  have h0 : 0 ≤ x.abs := nonneg_abs fun hx => by
    rw [le_iff, parts_abs, hx] at h
    exact Bool.false_ne_true h
  have h0y := nonneg_of_le h0 h
  have h0d := nonneg_of_lt h0y hy
  exact (lt_iff_rank h0 h0d).mpr
    (((le_iff_rank h0 h0y).mp h).trans_lt ((lt_iff_rank h0y h0d).mp hy))

/-- A finite double can be moved by less than `2 ^ 970`. -/
theorem isFinite_add (hx : x.isFinite) (hd : d.abs < halfLast) : (x + d).isFinite := by
  have hsmall := abs_lt_halfLast_iff.mp hd
  refine isFinite_add_of_lt hx (hsmall.isFinite (by decide)) ?_
  intro s m e hm t n f hn hx hd
  obtain ⟨hmlt, he⟩ := lt_of_parts hx
  obtain ⟨hnlt, -⟩ := lt_of_parts hd
  have hf : f ≤ 917 := hsmall.le_of_parts hd
  have hk : (971 - min e f).toNat = 54 + (917 - min e f).toNat := by omega
  have hpos : 0 < 2 ^ (917 - min e f).toNat := Nat.two_pow_pos _
  have hsum := natAbs_apply_add_apply s t (m <<< (e - min e f).toNat) (n <<< (f - min e f).toNat)
  have hleft := shiftLeft_le hmlt he (min e f)
  have hright := shiftLeft_le hnlt hf (min e f)
  rw [hk, pow_add] at hleft ⊢
  omega

theorem sign_of_nonneg (h : 0 ≤ x) (hx : parts x = .finite s m e hm) : s = .positive := by
  rw [nonneg_iff, hx] at h
  cases s with
  | positive => rfl
  | negative => exact absurd h Bool.false_ne_true

theorem parts_of_parts_neg (hx : parts (-x) = .finite s m e hm) :
    parts x = .finite (-s) m e hm := by
  rw [parts_neg] at hx
  cases hparts : parts x with
  | finite t n f hn =>
      rw [hparts] at hx
      cases hx
      cases t <;> rfl
  | _ =>
      rw [hparts] at hx
      exact absurd hx (by simp [UnpackedFloat.neg])

/-- The sum of two finite doubles on different sides of zero is finite. -/
theorem isFinite_add_neg (hx : x.isFinite) (hy : y.isFinite) (h0x : 0 ≤ x) (h0y : 0 ≤ y) :
    (x + -y).isFinite := by
  refine isFinite_add_of_lt hx (isFinite_neg hy) ?_
  intro s m e hm t n f hn hx hy
  obtain ⟨hmlt, he⟩ := lt_of_parts hx
  obtain ⟨hnlt, hf⟩ := lt_of_parts hy
  obtain rfl := sign_of_nonneg h0x hx
  obtain rfl : t = .negative := by
    have hsign := sign_of_nonneg h0y (parts_of_parts_neg hy)
    cases t with
    | negative => rfl
    | positive => exact Sign.noConfusion hsign
  have hleft := shiftLeft_le hmlt he (min e f)
  have hright := shiftLeft_le hnlt hf (min e f)
  have hpos : 0 < 2 ^ (971 - min e f).toNat := Nat.two_pow_pos _
  simp only [Sign.apply]
  generalize m <<< (e - min e f).toNat = a at hleft ⊢
  generalize n <<< (f - min e f).toNat = b at hright ⊢
  omega

/-- The greatest double cannot be moved up by `2 ^ 970` or more. -/
theorem not_isFinite_greatest_add (hd : parts d = .finite .positive n f hn)
    (hlarge : ¬ d.abs < halfLast) : (greatest + d).isFinite = false := by
  change (parts (greatest + d)).isFinite = false
  have hcanonical := canonical_parts d
  rw [hd] at hcanonical
  obtain ⟨-, -, hf, hdigits⟩ := hcanonical
  have hfar : 918 ≤ f := by
    by_contra hnear
    exact hlarge (abs_lt_halfLast_iff.mpr (.inr ⟨_, n, f, hn, hd, by omega⟩))
  have hmin : min 971 f = f := by omega
  rw [add_finite parts_greatest hd, hmin]
  refine not_isFinite_round (k := (971 - f).toNat) (by omega) ?_
  have hpow : 2 ^ (971 - f).toNat ≤ 2 ^ 53 := Nat.pow_le_pow_right (by decide) (by omega)
  rw [sumMantissa, hmin, sub_self, Int.toNat_zero, Nat.shiftLeft_zero, Nat.shiftLeft_eq]
  omega

end Double

end Flock
