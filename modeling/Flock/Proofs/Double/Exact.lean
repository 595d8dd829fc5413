import Mathlib.Data.Rat.Floor
import Flock.Proofs.Double.Value

/-!
# Exact values

The fields that the bits of a double are made of give the number that it stands for as a
whole number times a power of two (`ofFloat?_eq`). Whole numbers below and above a double are
taken from this product, and they are the floor and the ceiling of its value
(`ceil?_eq_some_iff`).
-/

namespace Flock

namespace Binary

def value (b : Binary) : ℚ := b.signed * 2 ^ b.exponent

theorem floor_eq (b : Binary) : b.floor = ⌊b.value⌋ := by
  unfold floor value
  split
  · next h =>
    obtain ⟨k, hk⟩ := Int.eq_ofNat_of_zero_le h
    have hpower : (2 : ℚ) ^ b.exponent = (b.power : Int) := by
      rw [power, hk, zpow_natCast, Int.natAbs_natCast]
      exact (Nat.cast_pow 2 k).symm
    rw [hpower, ← Int.cast_mul, Int.floor_intCast]
  · next h =>
    obtain ⟨k, hk⟩ := Int.exists_eq_neg_ofNat (not_le.mp h).le
    have hpower : (b.signed : ℚ) * 2 ^ b.exponent = b.signed / (b.power : Nat) := by
      rw [power, hk, Int.natAbs_neg, Int.natAbs_natCast, zpow_neg, zpow_natCast, div_eq_mul_inv]
      exact congrArg (fun q : ℚ => b.signed * q⁻¹) (Nat.cast_pow 2 k).symm
    rw [hpower, Rat.floor_intCast_div_natCast]

theorem ceil_eq (b : Binary) : b.ceil = ⌈b.value⌉ := by
  have hneg : ({ b with negative := !b.negative } : Binary).value = -b.value := by
    cases hsign : b.negative <;> simp [value, signed, hsign]
  rw [ceil, floor_eq, hneg, Int.floor_neg, neg_neg]

end Binary

namespace Double

open Float.Model Float.Model.UnpackedFloat

variable {x y : Float} {n : Int}

def isNegative : Sign → Bool
  | .negative => true
  | .positive => false

/-- The number that the parts of a double stand for, if they are finite. -/
def binary? : UnpackedFloat → Option Binary
  | .zero s => some ⟨isNegative s, 0, Binary.leastExponent⟩
  | .finite s m e _ => some ⟨isNegative s, m, e⟩
  | _ => none

theorem toNat_unpackMantissa (b : BitVec Format.binary64.numBits) :
    (unpackMantissa b).toNat = b.toNat % 2 ^ 52 := by
  simp only [unpackMantissa, BitVec.toNat_cast, BitVec.extractLsb_toNat, Nat.shiftRight_zero]

theorem toNat_unpackExponent (b : BitVec Format.binary64.numBits) :
    (unpackExponent b).toNat = b.toNat / 2 ^ 52 % 2 ^ 11 := by
  simp only [unpackExponent, BitVec.toNat_cast, BitVec.extractLsb_toNat, Nat.shiftRight_eq_div_pow]

theorem toNat_unpackSign (b : BitVec Format.binary64.numBits) :
    (unpackSign b).toNat = b.toNat / 2 ^ 63 := by
  have hlt : b.toNat < 2 ^ 64 := b.isLt
  simp only [unpackSign, BitVec.toNat_cast, BitVec.extractLsb_toNat, Nat.shiftRight_eq_div_pow]
  exact Nat.mod_eq_of_lt (by omega)

theorem isNegative_ofBitVec (b : BitVec 1) : isNegative (.ofBitVec b) = decide (b.toNat = 1) := by
  rcases BitVec.eq_zero_or_eq_one b with rfl | rfl <;> rfl

/-- The fields that the bits of a double are made of. -/
theorem ofBits?_eq_ite (bits : UInt64) :
    Binary.ofBits? bits =
      let negative := isNegative (.ofBitVec (@unpackSign .binary64 bits.toBitVec))
      let field := (@unpackExponent .binary64 bits.toBitVec).toNat
      let fraction := (@unpackMantissa .binary64 bits.toBitVec).toNat
      if field = 2047 then none
      else if field = 0 then some ⟨negative, fraction, Binary.leastExponent⟩
      else some ⟨negative, Binary.normalMantissa + fraction,
        Binary.leastExponent + (field - 1 : Nat)⟩ := by
  have hfraction : (bits &&& 0xfffffffffffff).toNat = bits.toNat % 2 ^ 52 := by
    rw [UInt64.toNat_and]
    exact Nat.and_two_pow_sub_one_eq_mod _ 52
  have hfield : ((bits >>> 52) &&& 0x7ff).toNat = bits.toNat / 2 ^ 52 % 2 ^ 11 := by
    rw [UInt64.toNat_and, UInt64.toNat_shiftRight]
    refine (Nat.and_two_pow_sub_one_eq_mod _ 11).trans ?_
    rw [Nat.shiftRight_eq_div_pow]
    rfl
  have hnegative : (bits >>> 63 == 1) = decide (bits.toNat / 2 ^ 63 = 1) := by
    rw [beq_eq_decide, decide_eq_decide, ← UInt64.toNat_inj, UInt64.toNat_shiftRight,
      Nat.shiftRight_eq_div_pow]
    rfl
  simp only [Binary.ofBits?, hfraction, hfield, hnegative, isNegative_ofBitVec,
    toNat_unpackSign, toNat_unpackExponent, toNat_unpackMantissa]
  rfl

/-- The exact value of a double is that of its parts. -/
theorem ofFloat?_eq (x : Float) : Binary.ofFloat? x = binary? (parts x) := by
  have hparts : parts x = UnpackedFloat.unpack .binary64 x.toBits.toBitVec := rfl
  have hlt := (@unpackExponent .binary64 x.toBits.toBitVec).isLt
  rw [Binary.ofFloat?, ofBits?_eq_ite, hparts]
  -- the exponent has all of its bits set (infinity, no number), none of them (zero, a number with
  -- fewer digits) or some of them
  fun_cases UnpackedFloat.unpack with
  | case1 mantissa field sign _ hones _ =>
      have hfield : field.toNat = 2047 := congrArg BitVec.toNat hones
      exact if_pos hfield
  | case2 mantissa field hones hnone =>
      have hfield : field.toNat = 2047 := congrArg BitVec.toNat hones
      exact if_pos hfield
  | case3 mantissa field _ sign hones hzero hnone =>
      have hfield : field.toNat = 0 := congrArg BitVec.toNat hzero
      have hmantissa : mantissa.toNat = 0 := congrArg BitVec.toNat hnone
      refine (if_neg fun h => ?_).trans ((if_pos hfield).trans ?_)
      · exact absurd (hfield.symm.trans h) (by decide)
      · exact congrArg (fun m => some (Binary.mk _ m _)) hmantissa
  | case4 mantissa field exponent _ sign _ hzero _ =>
      have hfield : field.toNat = 0 := congrArg BitVec.toNat hzero
      have hexponent : Binary.leastExponent = exponent + 1 := by
        change -1074 = (field.toNat : Int) - ((1023 : Nat) + (52 : Nat)) + 1
        omega
      refine (if_neg fun h => ?_).trans ((if_pos hfield).trans ?_)
      · exact absurd (hfield.symm.trans h) (by decide)
      · exact congrArg (fun e => some (Binary.mk _ _ e)) hexponent
  | case5 mantissa field exponent _ sign hones hzero =>
      have hlow : field.toNat ≠ 0 := fun h => hzero (BitVec.eq_of_toNat_eq h)
      have hhigh : field.toNat ≠ 2047 := fun h => hones (BitVec.eq_of_toNat_eq h)
      have hexponent : Binary.leastExponent + (field.toNat - 1 : Nat) = exponent := by
        change -1074 + ((field.toNat - 1 : Nat) : Int) = field.toNat - ((1023 : Nat) + (52 : Nat))
        omega
      refine (if_neg hhigh).trans ((if_neg hlow).trans ?_)
      exact congrArg some (congrArg₂ (Binary.mk _) (toNat_one_append mantissa).symm hexponent)

theorem value_eq (x : Float) {b : Binary} (h : Binary.ofFloat? x = some b) : value x = b.value := by
  rw [ofFloat?_eq] at h
  unfold value
  cases hx : parts x with
  | notANumber => rw [hx] at h; exact absurd h (by simp [binary?])
  | infinity s => rw [hx] at h; exact absurd h (by simp [binary?])
  | zero s =>
      rw [hx] at h
      obtain rfl := Option.some.inj h
      cases s <;> simp [Binary.value, Binary.signed]
  | finite s m e hm =>
      rw [hx] at h
      obtain rfl := Option.some.inj h
      cases s <;> simp [Binary.value, Binary.signed, isNegative, Sign.apply]

theorem isSome_ofFloat? (x : Float) : (Binary.ofFloat? x).isSome = x.isFinite := by
  rw [ofFloat?_eq]
  change _ = (parts x).isFinite
  cases parts x <;> rfl

theorem ceil?_eq_some_iff : Scalar.ceil? x = some n ↔ x.isFinite ∧ ⌈value x⌉ = n := by
  change (Binary.ofFloat? x).map Binary.ceil = some n ↔ _
  rw [← isSome_ofFloat?]
  cases h : Binary.ofFloat? x with
  | none => simp
  | some b => simp [value_eq x h, Binary.ceil_eq]

end Double

end Flock
