import Flock.Proofs.Double.Compare

/-!
# How doubles are rounded

What an operation has for its exact result is a whole number times a power of two. It is
rounded to the exponent at which the number has 53 binary digits, or to the least exponent
(`target`): the digits that are left over are dropped (`floorAt`), and the last one that
remains may be raised by one (`Rounded`). If that makes 54 digits of it, the result is a
power of two with the next exponent.
-/

namespace Flock

namespace Double

open Float.Model Float.Model.UnpackedFloat

variable {s : Sign} {n k : Nat} {e : Int}

/-- The exponent that `n * 2 ^ e` is rounded to. -/
def target (n : Nat) (e : Int) : Int := max (n.log2 + e - 52) (-1074)

/-- The digits of `n * 2 ^ e` that remain, as a number. -/
def floorAt (n : Nat) (e : Int) : Nat :=
  n * 2 ^ (e - target n e).toNat / 2 ^ (target n e - e).toNat

/-- No digits of `n * 2 ^ e` are left over. -/
def IsExact (n : Nat) (e : Int) : Prop := 2 ^ (target n e - e).toNat ∣ n

/-- The digits of `n * 2 ^ e` that are left over are worth more than half of the last one
that remains. -/
def IsPastHalf (n : Nat) (e : Int) : Prop :=
  2 ^ (target n e - e).toNat < 2 * (n % 2 ^ (target n e - e).toNat)

/-- The digits of `n * 2 ^ e` that remain, the last one raised if what is left over is worth
more than half of it, or just half and the last digit is odd. -/
def roundedAt (n : Nat) (e : Int) : Nat :=
  let last := 2 ^ (target n e - e).toNat
  let rest := n % last
  floorAt n e + if last < 2 * rest then 1 else if 2 * rest = last then floorAt n e % 2 else 0

/-- The number with a sign, a mantissa and an exponent. -/
def assemble (s : Sign) (n : Nat) (e : Int) : UnpackedFloat :=
  if h : n = 0 then .zero s else .finite s n e (Nat.pos_of_ne_zero h)

/-- A mantissa that may have 54 digits, with its exponent; it is then a power of two. -/
def carry (s : Sign) (r : Nat) (e : Int) : UnpackedFloat :=
  if r < 2 ^ 53 then assemble s r e else assemble s (2 ^ 52) (e + 1)

/-- What `n * 2 ^ e` can be rounded to. -/
inductive Rounded (s : Sign) (n : Nat) (e : Int) : UnpackedFloat → Prop where
  | kept {r : Nat} (hlow : floorAt n e ≤ r) (hhigh : r ≤ floorAt n e + 1) (hlt : r < 2 ^ 53)
      (hexact : IsExact n e → r = floorAt n e) (hpast : IsPastHalf n e → r = floorAt n e + 1) :
      Rounded s n e (assemble s r (target n e))
  | carried (hfull : floorAt n e + 1 = 2 ^ 53) (hinexact : ¬ IsExact n e) :
      Rounded s n e (assemble s (2 ^ 52) (target n e + 1))

theorem targetExponent_eq (n : Nat) (e : Int) :
    Format.binary64.targetExponent (totalExponent n e) = target n e := by
  have hdigits : (Format.binary64.mantissaBits : Int) = 53 := rfl
  have hleast : Format.binary64.minExponent = -1074 := rfl
  simp only [Format.targetExponent, totalExponent, target, hdigits, hleast]
  omega

/-- Shifting a quotient drops digits, and it remembers how what they are worth compares with
zero and with half of the last one that remains. -/
theorem shift_quotient (a k : Nat) {b : Nat} (hb : 0 < b) :
    ExtendedMantissa.ofMantissaAndAccuracy (a / b) (accuracyOfFraction (a % b) b) >>> k =
      ⟨a / (b * 2 ^ k), decide (b * 2 ^ k ≤ 2 * (a % (b * 2 ^ k))),
        decide (a % (b * 2 ^ k) ≠ 0 ∧ 2 * (a % (b * 2 ^ k)) ≠ b * 2 ^ k)⟩ := by
  induction k with
  | zero =>
      rw [Nat.pow_zero, Nat.mul_one]
      change ExtendedMantissa.ofMantissaAndAccuracy (a / b) (accuracyOfFraction (a % b) b) = _
      unfold accuracyOfFraction
      split
      · next hzero =>
        rw [hzero]
        simp [ExtendedMantissa.ofMantissaAndAccuracy]
        omega
      · next hsome =>
        rcases Nat.lt_trichotomy (2 * (a % b)) b with h | h | h
        · rw [Nat.compare_eq_lt.mpr h]
          simp [ExtendedMantissa.ofMantissaAndAccuracy]
          omega
        · rw [Nat.compare_eq_eq.mpr h]
          simp [ExtendedMantissa.ofMantissaAndAccuracy]
          omega
        · rw [Nat.compare_eq_gt.mpr h]
          simp [ExtendedMantissa.ofMantissaAndAccuracy]
          omega
  | succ k ih =>
      have hsucc (em : ExtendedMantissa) : em >>> (k + 1) = (em >>> k).shiftRightOne := rfl
      have hpow : b * 2 ^ (k + 1) = b * 2 ^ k * 2 := by rw [Nat.pow_succ, Nat.mul_assoc]
      have hdiv : a / (b * 2 ^ k) / 2 = a / (b * 2 ^ k * 2) := Nat.div_div_eq_div_mul ..
      have hmod : a % (b * 2 ^ k * 2) = a % (b * 2 ^ k) + b * 2 ^ k * (a / (b * 2 ^ k) % 2) :=
        Nat.mod_mul
      have hrest : a % (b * 2 ^ k) < b * 2 ^ k := Nat.mod_lt _ (Nat.mul_pos hb (Nat.two_pow_pos k))
      rw [hsucc, ih, ExtendedMantissa.shiftRightOne, hpow, hdiv, hmod]
      generalize a % (b * 2 ^ k) = rest at hrest ⊢
      generalize b * 2 ^ k = last at hrest ⊢
      -- the digit that is dropped last decides on which side of a half the others are
      rcases Nat.mod_two_eq_zero_or_one (a / last) with hdigit | hdigit
      all_goals
        rw [hdigit]
        refine congrArg₂ (ExtendedMantissa.mk _) ?_ ?_ <;> rw [Bool.eq_iff_iff] <;>
          simp only [bne_iff_ne, ne_eq, decide_eq_true_eq, Bool.or_eq_true, Nat.mul_zero,
            Nat.mul_one, Nat.add_zero, not_true_eq_false, false_iff] <;> omega

/-- A whole number is shifted as its quotient by 1. -/
theorem shift_eq (n k : Nat) :
    (⟨n, false, false⟩ : ExtendedMantissa) >>> k =
      ⟨n / 2 ^ k, decide (2 ^ k ≤ 2 * (n % 2 ^ k)),
        decide (n % 2 ^ k ≠ 0 ∧ 2 * (n % 2 ^ k) ≠ 2 ^ k)⟩ := by
  have hshift := shift_quotient n k Nat.one_pos
  rw [Nat.div_one, Nat.mod_one, Nat.one_mul] at hshift
  exact hshift

theorem roundedMantissa_mk (q : Nat) (roundBit stickyBit : Bool) :
    (ExtendedMantissa.mk q roundBit stickyBit).roundedMantissa =
      q + if roundBit then (if stickyBit then 1 else q % 2) else 0 := by
  cases roundBit <;> cases stickyBit <;> rfl

theorem roundedMantissa_shift (n k : Nat) :
    ((⟨n, false, false⟩ : ExtendedMantissa) >>> k).roundedMantissa =
      n / 2 ^ k + if 2 ^ k < 2 * (n % 2 ^ k) then 1
        else if 2 * (n % 2 ^ k) = 2 ^ k then n / 2 ^ k % 2 else 0 := by
  have hpos : 0 < 2 ^ k := Nat.two_pow_pos k
  simp only [shift_eq, roundedMantissa_mk, decide_eq_true_eq]
  congr 1
  split_ifs <;> omega

theorem shiftToTargetExponent_eq (n : Nat) (e : Int) :
    shiftToTargetExponent .binary64 n e .exact =
      ((⟨n, false, false⟩ : ExtendedMantissa) >>> (target n e - e).toNat,
        e + (target n e - e).toNat) := by
  rw [shiftToTargetExponent, targetExponent_eq]
  rfl

theorem le_target (n : Nat) (e : Int) : -1074 ≤ target n e := le_max_right _ _

theorem target_of_lt (h : n < 2 ^ 53) (he : -1074 ≤ e) : target n e ≤ e := by
  have hlog : n.log2 ≤ 52 := by
    by_cases hn : n = 0
    · rw [hn, Nat.log2_zero]
      omega
    · exact Nat.le_of_lt_succ ((Nat.log2_lt hn).mpr h)
  unfold target
  omega

theorem target_carry (he : -1074 ≤ e) : target (2 ^ 53) e = e + 1 := by
  rw [target, Nat.log2_two_pow]
  omega

/-- The digits that remain are 53 at most. -/
theorem floorAt_lt (n : Nat) (e : Int) : floorAt n e < 2 ^ 53 := by
  have hlog : n.log2 + 1 + (e - target n e).toNat ≤ 53 + (target n e - e).toNat := by
    have hmax : (n.log2 : Int) + e - 52 ≤ target n e := le_max_left _ _
    omega
  refine Nat.div_lt_of_lt_mul ?_
  calc n * 2 ^ (e - target n e).toNat
      < 2 ^ (n.log2 + 1) * 2 ^ (e - target n e).toNat :=
        Nat.mul_lt_mul_of_pos_right Nat.lt_log2_self (Nat.two_pow_pos _)
    _ = 2 ^ (n.log2 + 1 + (e - target n e).toNat) := (pow_add 2 _ _).symm
    _ ≤ 2 ^ (53 + (target n e - e).toNat) := Nat.pow_le_pow_right (by decide) hlog
    _ = 2 ^ (target n e - e).toNat * 2 ^ 53 := by rw [Nat.add_comm, pow_add]

/-- The second shift of a rounding takes a digit off if there are 54. -/
theorem assemble_shift (s : Sign) {r : Nat} (hr : r ≤ 2 ^ 53) (he : -1074 ≤ e) :
    (let (em, f) := shiftToTargetExponent .binary64 r e .exact
      if h : em.mantissa = 0 then .zero s
      else .finite s em.mantissa f (Nat.pos_of_ne_zero h)) =
      if r < 2 ^ 53 then assemble s r e else assemble s (2 ^ 52) (e + 1) := by
  rw [shiftToTargetExponent_eq]
  change assemble s _ _ = _
  rw [shift_eq]
  split
  · next hlt =>
    have hnone : (target r e - e).toNat = 0 := by
      have hle := target_of_lt hlt he
      omega
    rw [hnone, Nat.pow_zero, Nat.div_one, Int.natCast_zero, Int.add_zero]
  · next hge =>
    obtain rfl : r = 2 ^ 53 := by omega
    have hone : (target (2 ^ 53) e - e).toNat = 1 := by
      rw [target_carry he]
      omega
    rw [hone]
    rfl

/-- Where less than half is left over, the last digit is not raised. -/
theorem roundedAt_eq_floorAt
    (h : 2 * (n % 2 ^ (target n e - e).toNat) < 2 ^ (target n e - e).toNat) :
    roundedAt n e = floorAt n e := by
  simp only [roundedAt]
  rw [if_neg (by omega), if_neg (by omega), Nat.add_zero]

theorem roundedAt_of_isExact (h : IsExact n e) : roundedAt n e = floorAt n e := by
  refine roundedAt_eq_floorAt ?_
  rw [Nat.mod_eq_zero_of_dvd h]
  exact Nat.two_pow_pos _

theorem roundedAt_of_isPastHalf (h : IsPastHalf n e) : roundedAt n e = floorAt n e + 1 := by
  rw [IsPastHalf] at h
  simp only [roundedAt]
  rw [if_pos h]

theorem floorAt_le_roundedAt (n : Nat) (e : Int) : floorAt n e ≤ roundedAt n e :=
  Nat.le_add_right _ _

theorem roundedAt_le (n : Nat) (e : Int) : roundedAt n e ≤ floorAt n e + 1 := by
  simp only [roundedAt]
  split_ifs <;> omega

theorem rounded_carry (s : Sign) (n : Nat) (e : Int) :
    Rounded s n e (carry s (roundedAt n e) (target n e)) := by
  have hlt := floorAt_lt n e
  have hhigh := roundedAt_le n e
  unfold carry
  split
  · next hfits =>
    exact .kept (floorAt_le_roundedAt n e) hhigh hfits roundedAt_of_isExact roundedAt_of_isPastHalf
  · next hover =>
    refine .carried (by omega) fun hexact => ?_
    have hkept := roundedAt_of_isExact hexact
    omega

theorem roundWithAccuracy_eq (s : Sign) (n : Nat) (h : e ≤ target n e) :
    roundWithAccuracy .binary64 s n e .exact = carry s (roundedAt n e) (target n e) := by
  have hhigh := roundedAt_le n e
  have hlt := floorAt_lt n e
  have hfloor : floorAt n e = n / 2 ^ (target n e - e).toNat := by
    rw [floorAt, Int.toNat_of_nonpos (by omega : e - target n e ≤ 0), Nat.pow_zero, Nat.mul_one]
  have hexponent : e + (target n e - e).toNat = target n e := by omega
  have hfirst : ((⟨n, false, false⟩ : ExtendedMantissa) >>>
      (target n e - e).toNat).roundedMantissa = roundedAt n e := by
    rw [roundedMantissa_shift, ← hfloor]
    rfl
  rw [carry, ← assemble_shift s (by omega) (le_target n e), roundWithAccuracy,
    shiftToTargetExponent_eq, hexponent]
  simp only [hfirst]

theorem log2_shiftLeft (hn : 0 < n) (k : Nat) : (n <<< k).log2 = n.log2 + k := by
  have hpow (m : Nat) : 2 ^ (m + k) = 2 ^ m * 2 ^ k := pow_add 2 m k
  obtain ⟨hlow, hhigh⟩ := (Nat.log2_eq_iff (Nat.ne_of_gt hn)).mp rfl
  rw [Nat.shiftLeft_eq, Nat.log2_eq_iff (Nat.ne_of_gt (Nat.mul_pos hn (Nat.two_pow_pos k))),
    Nat.add_right_comm, hpow, hpow]
  exact ⟨Nat.mul_le_mul_right _ hlow, Nat.mul_lt_mul_of_pos_right hhigh (Nat.two_pow_pos k)⟩

theorem target_shiftLeft (hn : 0 < n) (k : Nat) (e : Int) :
    target (n <<< k) (e - k) = target n e := by
  rw [target, target, log2_shiftLeft hn]
  omega

/-- A number whose exponent is too large is written with a smaller one first. -/
theorem round_eq (s : Sign) (hn : 0 < n) (e : Int) :
    UnpackedFloat.round .binary64 s n e = carry s (roundedAt n e) (target n e) := by
  have htarget := target_shiftLeft hn (e - target n e).toNat e
  have hround : UnpackedFloat.round .binary64 s n e = roundWithAccuracy .binary64 s
      (n <<< (e - target n e).toNat) (e - (e - target n e).toNat) .exact := by
    unfold UnpackedFloat.round
    rw [targetExponent_eq]
    rfl
  have hsame : roundedAt (n <<< (e - target n e).toNat) (e - (e - target n e).toNat) =
      roundedAt n e := by
    by_cases hle : e ≤ target n e
    · rw [Int.toNat_of_nonpos (by omega : e - target n e ≤ 0), Nat.shiftLeft_zero,
        Int.natCast_zero, Int.sub_zero]
    · -- nothing is left over, neither before nor after
      have hleft : (target n e - e).toNat = 0 := by omega
      have hexponent : e - (e - target n e).toNat = target n e := by omega
      have hexact : IsExact n e := by
        rw [IsExact, hleft]
        exact one_dvd _
      have hexact' : IsExact (n <<< (e - target n e).toNat) (e - (e - target n e).toNat) := by
        rw [IsExact, htarget, hexponent, sub_self]
        exact one_dvd _
      rw [roundedAt_of_isExact hexact, roundedAt_of_isExact hexact', floorAt, floorAt, htarget,
        hexponent, hleft, sub_self, Nat.shiftLeft_eq, Int.toNat_zero, Nat.pow_zero, Nat.mul_one]
  rw [hround, roundWithAccuracy_eq s _ (by omega), hsame, htarget]

theorem rounded_round (s : Sign) (hn : 0 < n) (e : Int) :
    Rounded s n e (UnpackedFloat.round .binary64 s n e) := by
  rw [round_eq s hn e]
  exact rounded_carry s n e

/-- Unless the exponent is the least one, all of the 53 digits remain. -/
theorem le_floorAt (hn : 0 < n) (h : target n e ≠ -1074) : 2 ^ 52 ≤ floorAt n e := by
  have hlog : 52 + (target n e - e).toNat = n.log2 + (e - target n e).toNat := by
    have htarget : target n e = n.log2 + e - 52 := by
      unfold target at h ⊢
      omega
    omega
  refine (Nat.le_div_iff_mul_le (Nat.two_pow_pos _)).mpr ?_
  calc 2 ^ 52 * 2 ^ (target n e - e).toNat
      = 2 ^ n.log2 * 2 ^ (e - target n e).toNat := by rw [← pow_add, ← pow_add, hlog]
    _ ≤ n * 2 ^ (e - target n e).toNat :=
        Nat.mul_le_mul_right _ (Nat.log2_self_le (Nat.ne_of_gt hn))

theorem digits_of_floorAt_le {r : Nat} (hn : 0 < n) (h : floorAt n e ≤ r) :
    target n e = -1074 ∨ 2 ^ 52 ≤ r :=
  (em _).imp_right fun hne => (le_floorAt hn hne).trans h

/-! Doubles put together from what was rounded. -/

theorem parts_ofParts_assemble_zero (s : Sign) (e : Int) :
    parts (ofParts (assemble s 0 e)) = .zero s := by
  have hzero : assemble s 0 e = .zero s := dif_pos rfl
  rw [hzero, parts_ofParts_zero]

theorem parts_ofParts_assemble {r : Nat} (hr : 0 < r) (hlt : r < 2 ^ 53) (he : -1074 ≤ e)
    (hdigits : e = -1074 ∨ 2 ^ 52 ≤ r) :
    parts (ofParts (assemble s r e)) = if e ≤ 971 then .finite s r e hr else .infinity s := by
  have hassemble : assemble s r e = .finite s r e hr := dif_neg (Nat.ne_of_gt hr)
  rw [hassemble]
  split
  · next hle => exact parts_ofParts ⟨hlt, he, hle, hdigits⟩
  · next hgt => exact parts_ofParts_of_lt (by omega)

/-- A positive number is below what has a greater exponent, or the same one and a greater
mantissa. -/
theorem lt_ofParts_assemble {x : Float} {m r : Nat} {f : Int} {hm : 0 < m}
    (hx : parts x = .finite .positive m e hm) (hlt : r < 2 ^ 53) (hf : -1074 ≤ f)
    (hdigits : f = -1074 ∨ 2 ^ 52 ≤ r) (h : e < f ∨ e = f ∧ m < r) :
    x < ofParts (assemble .positive r f) := by
  have hr : 0 < r := by
    have hcanonical := canonical_parts x
    rw [hx] at hcanonical
    obtain ⟨-, hlow, -, -⟩ := hcanonical
    omega
  rw [lt_iff, hx, parts_ofParts_assemble hr hlt hf hdigits]
  split
  · exact finite_lt_finite.mpr h
  · rfl

/-! Sums. -/

/-- The sum of two mantissas, written with the smaller of the exponents. -/
def sumMantissa (m : Nat) (e : Int) (n : Nat) (f : Int) : Nat :=
  m <<< (e - min e f).toNat + n <<< (f - min e f).toNat

theorem add_eq (x y : Float) : x + y = ofParts (.add .binary64 (parts x) (parts y)) := rfl

theorem normalize_of_pos {a : Int} (h : 0 < a) (e : Int) (s : Sign) :
    UnpackedFloat.normalize .binary64 a e s = .round .binary64 .positive a.toNat e := by
  unfold UnpackedFloat.normalize
  rw [Int.compare_eq_gt.mpr h]

theorem sumMantissa_pos {m n : Nat} {f : Int} (hm : 0 < m) : 0 < sumMantissa m e n f := by
  rw [sumMantissa, Nat.shiftLeft_eq]
  exact Nat.add_pos_left (Nat.mul_pos hm (Nat.two_pow_pos _)) _

theorem add_finite {x y : Float} {m n : Nat} {f : Int} {hm : 0 < m} {hn : 0 < n}
    (hx : parts x = .finite .positive m e hm) (hy : parts y = .finite .positive n f hn) :
    x + y = ofParts (.round .binary64 .positive (sumMantissa m e n f) (min e f)) := by
  have hpos : 0 < ((sumMantissa m e n f : Nat) : Int) := Int.natCast_pos.mpr (sumMantissa_pos hm)
  have hnormalize : UnpackedFloat.add .binary64 (.finite .positive m e hm) (.finite .positive n f hn) =
      normalize .binary64 (sumMantissa m e n f : Nat) (min e f) .positive := rfl
  rw [add_eq, hx, hy, hnormalize, normalize_of_pos hpos]
  rfl

/-- The exponent of a sum is at least that of its first summand, and if it is the same, at
least the mantissa of that remains. -/
theorem target_sum {m n : Nat} {f : Int} (hm : 0 < m) (he : -1074 ≤ e)
    (hdigits : e = -1074 ∨ 2 ^ 52 ≤ m) :
    e ≤ target (sumMantissa m e n f) (min e f) ∧
      (target (sumMantissa m e n f) (min e f) = e →
        m + n <<< (f - min e f).toNat / 2 ^ (e - min e f).toNat ≤
          floorAt (sumMantissa m e n f) (min e f)) := by
  have hleast := le_target (sumMantissa m e n f) (min e f)
  constructor
  · rcases hdigits with rfl | hdigits
    · exact hleast
    · have hlog : 52 + (e - min e f).toNat ≤ (sumMantissa m e n f).log2 := by
        rw [Nat.le_log2 (Nat.ne_of_gt (sumMantissa_pos hm)), pow_add]
        calc 2 ^ 52 * 2 ^ (e - min e f).toNat
            ≤ m * 2 ^ (e - min e f).toNat := Nat.mul_le_mul_right _ hdigits
          _ = m <<< (e - min e f).toNat := (Nat.shiftLeft_eq ..).symm
          _ ≤ sumMantissa m e n f := Nat.le_add_right _ _
      have hmax : ((sumMantissa m e n f).log2 : Int) + min e f - 52 ≤
        target (sumMantissa m e n f) (min e f) := le_max_left _ _
      omega
  · intro htarget
    have hnone : (min e f - e).toNat = 0 := by omega
    rw [floorAt, htarget, hnone, Nat.pow_zero, Nat.mul_one, sumMantissa, Nat.shiftLeft_eq m,
      Nat.add_comm (m * _), Nat.add_mul_div_right _ _ (Nat.two_pow_pos _), Nat.add_comm]

/-- A sum of two positive numbers is above the first of them, or it is the same. It is
above it if the second summand is more than half of its last digit. -/
theorem add_finite_eq_or_lt {x d : Float} {m n : Nat} {f : Int} {hm : 0 < m} {hn : 0 < n}
    (hx : parts x = .finite .positive m e hm) (hd : parts d = .finite .positive n f hn) :
    (x + d = x ∧ 2 * n <<< (f - min e f).toNat ≤ 2 ^ (e - min e f).toNat) ∨ x < x + d := by
  have hcanonical := canonical_parts x
  rw [hx] at hcanonical
  obtain ⟨-, hlow, -, hdigits⟩ := hcanonical
  have hpos : 0 < sumMantissa m e n f := sumMantissa_pos hm
  obtain ⟨htarget, hfloor⟩ := target_sum (n := n) (f := f) hm hlow hdigits
  have hleast := le_target (sumMantissa m e n f) (min e f)
  have hrounded := rounded_round .positive hpos (min e f)
  rw [add_finite hx hd]
  generalize UnpackedFloat.round .binary64 .positive (sumMantissa m e n f) (min e f) = u at hrounded ⊢
  cases hrounded with
  | carried hfull hinexact =>
      exact .inr (lt_ofParts_assemble hx (by decide) (by omega) (.inr le_rfl) (.inl (by omega)))
  | @kept r hfloorLe hhigh hlt hexact hpast =>
      have hkept := digits_of_floorAt_le hpos hfloorLe
      rcases htarget.lt_or_eq with hlower | hsame
      · exact .inr (lt_ofParts_assemble hx hlt hleast hkept (.inl hlower))
      · have hsum := (hfloor hsame.symm).trans hfloorLe
        generalize hless : n <<< (f - min e f).toNat / 2 ^ (e - min e f).toNat = raised at hsum
        by_cases hgrows : m < r
        · exact .inr (lt_ofParts_assemble hx hlt hleast hkept (.inr ⟨hsame, hgrows⟩))
        · obtain rfl : r = m := by omega
          obtain rfl : raised = 0 := by omega
          have hrest := Nat.lt_of_div_eq_zero (Nat.two_pow_pos _) hless
          have hhalf : ¬ IsPastHalf (sumMantissa r e n f) (min e f) := fun h => by
            have hfloorEq := hpast h
            have hremains := hfloor hsame.symm
            omega
          rw [IsPastHalf, ← hsame, sumMantissa, Nat.shiftLeft_eq r, Nat.mul_add_mod_self_right,
            Nat.mod_eq_of_lt hrest, Nat.not_lt] at hhalf
          refine .inl ⟨?_, hhalf⟩
          have hassemble : assemble .positive r e = .finite .positive r e hm :=
            dif_neg (Nat.ne_of_gt hm)
          rw [← hsame, hassemble, ofParts_eq hx]

/-- What is added to zero is the sum. -/
theorem add_of_parts_zero {x d : Float} (hx : parts x = .zero s) (hd : 0 < d) : x + d = d := by
  rcases pos_cases (pos_iff.mp hd) with ⟨n, f, hn, hd⟩ | hd
  all_goals
    rw [add_eq, hx, hd]
    exact ofParts_eq hd

theorem parts_add_infinity {x d : Float} {m : Nat} {hm : 0 < m}
    (hx : parts x = .finite .positive m e hm) (hd : parts d = .infinity .positive) :
    parts (x + d) = .infinity .positive := by
  rw [add_eq, hx, hd]
  exact parts_ofParts_infinity .positive

/-- Adding a positive number to one that is not below zero leads further up, or nowhere. -/
theorem add_eq_or_lt {x d : Float} (hx : 0 ≤ x) (hd : 0 < d) : x + d = x ∨ x < x + d := by
  have hpos := pos_cases (pos_iff.mp hd)
  rcases nonneg_cases (nonneg_iff.mp hx) with ⟨s, hx⟩ | ⟨m, e, hm, hx⟩ | hx
  · right
    rw [add_of_parts_zero hx hd, lt_iff, hx]
    rcases hpos with ⟨n, f, hn, hd⟩ | hd
    all_goals
      rw [hd]
      rfl
  · rcases hpos with ⟨n, f, hn, hd⟩ | hd
    · exact (add_finite_eq_or_lt hx hd).imp_left And.left
    · rw [lt_iff, parts_add_infinity hx hd, hx]
      exact .inr rfl
  · have hsum : x + d = x := by
      rcases hpos with ⟨n, f, hn, hd⟩ | hd <;> rw [add_eq, hx, hd] <;> exact ofParts_eq hx
    exact .inl hsum

end Double

end Flock
