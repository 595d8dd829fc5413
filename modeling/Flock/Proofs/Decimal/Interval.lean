import Mathlib.Algebra.Order.Field.Power
import Mathlib.Data.Rat.Cast.Order
import Mathlib.Tactic.FieldSimp
import Mathlib.Tactic.GCongr
import Mathlib.Tactic.Positivity
import Mathlib.Tactic.Ring
import Flock.Decimal.Shortest

/-!
# Decimals in rounding intervals

The numbers that round to a double form an interval, and those of different doubles have no number
in common: where two of them meet, one of the mantissas is odd, and the interval of an odd mantissa
is open (`Encloses.lt_of_lt`). The shortest decimal of a double lies in its interval
(`encloses_shortest`), so its value determines the mantissa and the exponent
(`eq_of_value_shortest_eq`).
-/

namespace Flock

/-- The number that a decimal stands for. -/
def Decimal.value (d : Decimal) : ℚ := d.digits * 10 ^ d.exponent

namespace RoundingInterval

variable {i : RoundingInterval} {tie : Tie} {grid n : Nat}

theorem contains_onGrid? (h : i.onGrid? tie grid = some n) : i.contains (n * grid) := by
  unfold onGrid? at h
  dsimp only at h
  split at h
  · next hlow hhigh =>
    obtain rfl := Option.some.inj h
    obtain ⟨hge, hle⟩ := tie.roundDiv_bounds i.value grid
    rcases (by omega : tie.roundDiv i.value grid = i.value / grid ∨
        tie.roundDiv i.value grid = i.value / grid + 1) with heq | heq
    · rw [heq]
      exact hlow
    · rw [heq]
      exact hhigh
  · next hlow _ =>
    obtain rfl := Option.some.inj h
    exact hlow
  · next _ hhigh =>
    obtain rfl := Option.some.inj h
    exact hhigh
  · exact absurd h (by simp)

/-- The decimal found is a multiple of `10 ^ shift` in the interval. -/
theorem contains_coarsest (hvalue : i.contains i.value) (tie : Tie) (p : Nat) :
    ∃ n, i.contains n ∧ (i.coarsest tie p).value = n * 10 ^ i.shift := by
  induction p with
  | zero => exact ⟨i.value, hvalue, rfl⟩
  | succ p ih =>
      unfold coarsest
      split
      · next n hn =>
        refine ⟨n * 10 ^ (p + 1), contains_onGrid? hn, ?_⟩
        rw [Decimal.value, zpow_add₀ (by norm_num), zpow_natCast]
        push_cast
        ring
      · exact ih

end RoundingInterval

namespace Decimal

theorem value_trim (d : Decimal) : d.trim.value = d.value := by
  fun_induction trim with
  | case1 d h ih =>
      have hdigits : d.digits = 10 * (d.digits / 10) := by omega
      rw [ih, value, value, zpow_add_one₀ (by norm_num)]
      conv_rhs => rw [hdigits]
      push_cast
      ring
  | case2 => rfl

end Decimal

namespace Binary

variable {b c : Binary} {v w : ℚ}

/-- What the exact values of doubles look like: the mantissa has 53 digits, or fewer if the exponent
is the least one. -/
structure IsDouble (b : Binary) : Prop where
  lt : b.mantissa < 2 ^ 53
  least : leastExponent ≤ b.exponent
  digits : b.exponent = leastExponent ∨ 2 ^ 52 ≤ b.mantissa

/-- The lower end of the rounding interval, in quarters of the last digit. -/
def lowQuarters (b : Binary) : Nat := 4 * b.mantissa - if b.isNarrowBelow then 1 else 2

/-- The number rounds to the double. -/
structure Encloses (b : Binary) (v : ℚ) : Prop where
  low : b.lowQuarters * 2 ^ (b.exponent - 2) ≤ v
  high : v ≤ (4 * b.mantissa + 2 : Nat) * 2 ^ (b.exponent - 2)
  odd : b.mantissa % 2 = 1 →
    b.lowQuarters * 2 ^ (b.exponent - 2) < v ∧ v < (4 * b.mantissa + 2 : Nat) * 2 ^ (b.exponent - 2)

/-- A power of two is a power of five over a power of ten, where its exponent is negative. -/
theorem unit_mul_shift (q : Int) :
    ((Nat.pow (if 0 ≤ q then 2 else 5) q.natAbs : Nat) : ℚ) * 10 ^ (if 0 ≤ q then 0 else q) =
      2 ^ q := by
  by_cases hq : 0 ≤ q
  · obtain ⟨k, rfl⟩ := Int.eq_ofNat_of_zero_le hq
    rw [if_pos hq, if_pos hq, zpow_zero, mul_one, Int.natAbs_natCast, zpow_natCast]
    exact Nat.cast_pow 2 k
  · obtain ⟨k, rfl⟩ : ∃ k : Nat, q = -k := ⟨q.natAbs, by omega⟩
    rw [if_neg hq, if_neg hq, Int.natAbs_neg, Int.natAbs_natCast, zpow_neg, zpow_neg,
      zpow_natCast, zpow_natCast]
    have hten : (10 : ℚ) ^ k = 2 ^ k * 5 ^ k := by rw [← mul_pow]; norm_num
    rw [Nat.pow_eq, Nat.cast_pow, hten]
    push_cast
    field_simp

theorem low_ofBinary (b : Binary) :
    ((RoundingInterval.ofBinary b).low : ℚ) * 10 ^ (RoundingInterval.ofBinary b).shift =
      b.lowQuarters * 2 ^ (b.exponent - 2) := by
  rw [← unit_mul_shift, ← mul_assoc, ← Nat.cast_mul]
  rfl

theorem high_ofBinary (b : Binary) :
    ((RoundingInterval.ofBinary b).high : ℚ) * 10 ^ (RoundingInterval.ofBinary b).shift =
      (4 * b.mantissa + 2 : Nat) * 2 ^ (b.exponent - 2) := by
  rw [← unit_mul_shift, ← mul_assoc, ← Nat.cast_mul]
  rfl

theorem encloses_of_contains {n : Nat} (h : (RoundingInterval.ofBinary b).contains n) :
    b.Encloses (n * 10 ^ (RoundingInterval.ofBinary b).shift) := by
  have hpos : (0 : ℚ) < 10 ^ (RoundingInterval.ofBinary b).shift := by positivity
  have hclosed : (RoundingInterval.ofBinary b).closed = (b.mantissa % 2 == 0) := rfl
  have hlow := low_ofBinary b
  have hhigh := high_ofBinary b
  unfold RoundingInterval.contains at h
  split_ifs at h with hparity
  · rw [Bool.and_eq_true, decide_eq_true_eq, decide_eq_true_eq] at h
    rw [hclosed, beq_iff_eq] at hparity
    refine ⟨?_, ?_, by omega⟩
    · rw [← hlow]
      exact mul_le_mul_of_nonneg_right (Nat.cast_le.mpr h.1) hpos.le
    · rw [← hhigh]
      exact mul_le_mul_of_nonneg_right (Nat.cast_le.mpr h.2) hpos.le
  · rw [Bool.and_eq_true, decide_eq_true_eq, decide_eq_true_eq] at h
    have hinside : b.lowQuarters * 2 ^ (b.exponent - 2) <
        (n : ℚ) * 10 ^ (RoundingInterval.ofBinary b).shift ∧
        (n : ℚ) * 10 ^ (RoundingInterval.ofBinary b).shift <
          (4 * b.mantissa + 2 : Nat) * 2 ^ (b.exponent - 2) := by
      rw [← hlow, ← hhigh]
      exact ⟨mul_lt_mul_of_pos_right (Nat.cast_lt.mpr h.1) hpos,
        mul_lt_mul_of_pos_right (Nat.cast_lt.mpr h.2) hpos⟩
    exact ⟨hinside.1.le, hinside.2.le, fun _ => hinside⟩

theorem contains_value (h : b.mantissa ≠ 0) :
    (RoundingInterval.ofBinary b).contains (RoundingInterval.ofBinary b).value := by
  have hpos : 0 < Nat.pow (if 0 ≤ b.exponent - 2 then 2 else 5) (b.exponent - 2).natAbs :=
    Nat.pow_pos (by split_ifs <;> decide)
  have hlow : (RoundingInterval.ofBinary b).low < (RoundingInterval.ofBinary b).value :=
    Nat.mul_lt_mul_of_pos_right (by split_ifs <;> omega) hpos
  have hhigh : (RoundingInterval.ofBinary b).value < (RoundingInterval.ofBinary b).high :=
    Nat.mul_lt_mul_of_pos_right (by omega) hpos
  unfold RoundingInterval.contains
  split_ifs
  · rw [decide_eq_true hlow.le, decide_eq_true hhigh.le]
    rfl
  · rw [decide_eq_true hlow, decide_eq_true hhigh]
    rfl

/-- The shortest decimal rounds to the double that it is the text of. -/
theorem encloses_shortest (tie : Tie) (h : b.mantissa ≠ 0) :
    b.Encloses (Decimal.shortest tie b).value := by
  obtain ⟨n, hn, hvalue⟩ := RoundingInterval.contains_coarsest (contains_value h) tie
    ((Decimal.digitsOf (RoundingInterval.ofBinary b).value).length - 1)
  rw [Decimal.shortest, if_neg h]
  dsimp only
  rw [Decimal.value_trim, hvalue]
  exact encloses_of_contains hn

theorem mul_two_pow_le {a k : Nat} {e f : Int} (hle : e ≤ f) (heq : e = f → a ≤ k)
    (hlt : e < f → a ≤ 2 ^ 55 - 2 ∧ 2 ^ 54 - 1 ≤ k) :
    (a : ℚ) * 2 ^ (e - 2) ≤ k * 2 ^ (f - 2) := by
  rcases hle.eq_or_lt with rfl | hless
  · exact mul_le_mul_of_nonneg_right (Nat.cast_le.mpr (heq rfl)) (by positivity)
  · obtain ⟨ha, hk⟩ := hlt hless
    calc (a : ℚ) * 2 ^ (e - 2) ≤ (2 ^ 55 - 2 : Nat) * 2 ^ (e - 2) := by gcongr
      _ = (2 ^ 54 - 1 : Nat) * 2 ^ (e - 2 + 1) := by
          rw [zpow_add_one₀ two_ne_zero]
          norm_num
          ring
      _ ≤ (2 ^ 54 - 1 : Nat) * 2 ^ (f - 2) := by
          gcongr
          · exact one_le_two
          · omega
      _ ≤ k * 2 ^ (f - 2) := by gcongr

/-- What rounds to the smaller one of two doubles is smaller. -/
theorem Encloses.lt_of_lt (hb : b.IsDouble) (hc : c.IsDouble) (hv : b.Encloses v)
    (hw : c.Encloses w)
    (h : b.exponent < c.exponent ∨ b.exponent = c.exponent ∧ b.mantissa < c.mantissa) :
    v < w := by
  obtain ⟨hlt, hleast, -⟩ := hb
  obtain ⟨hlt', -, hdigits⟩ := hc
  have hquarters : c.lowQuarters = 4 * c.mantissa -
      if c.mantissa = 2 ^ 52 ∧ c.exponent ≠ leastExponent then 1 else 2 := by
    simp [lowQuarters, isNarrowBelow, normalMantissa]
  have hmeet : ((4 * b.mantissa + 2 : Nat) : ℚ) * 2 ^ (b.exponent - 2) ≤
      c.lowQuarters * 2 ^ (c.exponent - 2) := by
    refine mul_two_pow_le (by omega) ?_ ?_ <;> split_ifs at hquarters <;> omega
  rcases Nat.mod_two_eq_zero_or_one b.mantissa with heven | hodd
  · rcases Nat.mod_two_eq_zero_or_one c.mantissa with heven' | hodd'
    · -- the two intervals do not even meet
      have happart : ((4 * b.mantissa + 2 + 1 : Nat) : ℚ) * 2 ^ (b.exponent - 2) ≤
          c.lowQuarters * 2 ^ (c.exponent - 2) := by
        refine mul_two_pow_le (by omega) ?_ ?_ <;> split_ifs at hquarters <;> omega
      have hless : ((4 * b.mantissa + 2 : Nat) : ℚ) * 2 ^ (b.exponent - 2) <
          (4 * b.mantissa + 2 + 1 : Nat) * 2 ^ (b.exponent - 2) :=
        mul_lt_mul_of_pos_right (Nat.cast_lt.mpr (Nat.lt_succ_self _)) (by positivity)
      exact hv.high.trans_lt (hless.trans_le (happart.trans hw.low))
    · exact hv.high.trans_lt (hmeet.trans_lt (hw.odd hodd').1)
  · exact (hv.odd hodd).2.trans_le (hmeet.trans hw.low)

theorem Encloses.pos (h : b.mantissa ≠ 0) (hv : b.Encloses v) : 0 < v := by
  have hquarters : 0 < b.lowQuarters := by
    unfold lowQuarters
    split_ifs <;> omega
  exact lt_of_lt_of_le (by positivity) hv.low

/-- Different doubles that are not below zero have shortest decimals of different values. -/
theorem eq_of_value_shortest_eq {tie : Tie} (hb : b.IsDouble) (hc : c.IsDouble)
    (h : (Decimal.shortest tie b).value = (Decimal.shortest tie c).value) :
    b.mantissa = c.mantissa ∧ b.exponent = c.exponent := by
  have hzero {b : Binary} (h : b.mantissa = 0) : (Decimal.shortest tie b).value = 0 := by
    rw [Decimal.shortest, if_pos h, Decimal.value, Nat.cast_zero, zero_mul]
  have hdigits := hb.digits
  have hdigits' := hc.digits
  by_cases hm : b.mantissa = 0
  · by_cases hm' : c.mantissa = 0
    · omega
    · have hpos := (encloses_shortest tie hm').pos hm'
      rw [← h, hzero hm] at hpos
      exact absurd hpos (lt_irrefl 0)
  · by_cases hm' : c.mantissa = 0
    · have hpos := (encloses_shortest tie hm).pos hm
      rw [h, hzero hm'] at hpos
      exact absurd hpos (lt_irrefl 0)
    · have hv := encloses_shortest tie hm
      have hw := encloses_shortest tie hm'
      by_contra hne
      have horder :
          (b.exponent < c.exponent ∨ b.exponent = c.exponent ∧ b.mantissa < c.mantissa) ∨
            c.exponent < b.exponent ∨ c.exponent = b.exponent ∧ c.mantissa < b.mantissa := by
        omega
      rcases horder with hless | hmore
      · exact absurd h (hv.lt_of_lt hb hc hw hless).ne
      · exact absurd h.symm (hw.lt_of_lt hc hb hv hmore).ne

end Binary

end Flock
