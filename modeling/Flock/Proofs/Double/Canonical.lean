import Mathlib
import Flock.Scalar.Double

/-!
# Doubles by their parts

A double is known by its parts: not a number, an infinity, a zero, or a sign, a mantissa
and an exponent. An operation takes doubles apart, works on the parts, and puts its
result together. The parts of a double are `Canonical`: the mantissa has 53 binary digits,
or fewer if the exponent is the least one. Canonical parts are those of the double that is
put together from them (`parts_ofParts`).
-/

namespace Flock

namespace Double

open Float.Model Float.Model.UnpackedFloat

def parts (x : Float) : UnpackedFloat := x.toModel.unpack

/-- The double with the given parts, an infinity if the exponent is too large. -/
def ofParts (u : UnpackedFloat) : Float := .ofModel (.pack u)

/-- The parts that doubles are taken apart into. -/
def Canonical : UnpackedFloat → Prop
  | .finite _ m e _ => m < 2 ^ 53 ∧ -1074 ≤ e ∧ e ≤ 971 ∧ (e = -1074 ∨ 2 ^ 52 ≤ m)
  | _ => True

variable {x y : Float} {u v : UnpackedFloat} {s : Sign} {m : Nat} {e : Int} {hm : 0 < m}

theorem ofParts_parts (x : Float) : ofParts (parts x) = x :=
  Float.toBits_inj.mp (UInt64.toBitVec_inj.mp (pack_unpack_of_valid x.toModel.valid))

theorem ofParts_eq (h : parts x = u) : ofParts u = x := by rw [← h, ofParts_parts]

theorem parts_injective : Function.Injective parts :=
  Function.LeftInverse.injective ofParts_parts

theorem toNat_one_append (b : BitVec 52) : (1#1 ++ b).toNat = 2 ^ 52 + b.toNat := by
  rw [BitVec.toNat_append, ← Nat.shiftLeft_add_eq_or_of_lt b.isLt]
  rfl

theorem canonical_unpack (b : BitVec Format.binary64.numBits) :
    Canonical (UnpackedFloat.unpack .binary64 b) := by
  have hmantissa := (unpackMantissa b).isLt
  have hexponent := (unpackExponent b).isLt
  fun_cases UnpackedFloat.unpack with
  | case1 => trivial
  | case2 => trivial
  | case3 => trivial
  | case4 mantissa field exponent _ _ _ hzero _ =>
      -- a field of 0 belongs to the least exponent
      have hfield : field.toNat = 0 := congrArg BitVec.toNat hzero
      have hbias : exponent = field.toNat - 1075 := rfl
      have hlt : mantissa.toNat < 2 ^ 52 := hmantissa
      refine ⟨?_, ?_, ?_, ?_⟩ <;> omega
  | case5 mantissa field exponent _ _ hones hzero =>
      have hbias : exponent = field.toNat - 1075 := rfl
      have hlow : field.toNat ≠ 0 := fun h => hzero (BitVec.eq_of_toNat_eq h)
      have hhigh : field.toNat ≠ 2047 := fun h => hones (BitVec.eq_of_toNat_eq h)
      have hlt : mantissa.toNat < 2 ^ 52 := hmantissa
      have hfield : field.toNat < 2048 := hexponent
      have happend : (1#1 ++ mantissa).toNat = 2 ^ 52 + mantissa.toNat := toNat_one_append mantissa
      refine ⟨?_, ?_, ?_, ?_⟩ <;> omega

theorem canonical_parts (x : Float) : Canonical (parts x) := canonical_unpack _

theorem canonical_neg (h : Canonical u) : Canonical u.neg := by
  cases u <;> exact h

theorem canonical_abs (h : Canonical u) : Canonical u.abs := by
  cases u <;> exact h

/-- The exponent of canonical parts is stored above a bias of 1075. -/
theorem pack_finite (hlow : -1074 ≤ e) (hhigh : e ≤ 971) :
    UnpackedFloat.pack .binary64 (.finite s m e hm) =
      packComponents .binary64 s
        (if m.log2 = 52 then BitVec.ofNat 11 (e + 1075).toNat else 0#11) (BitVec.ofNat 52 m) := by
  have hbias : (e + Format.binary64.exponentBias +
      Format.binary64.mantissaBitsWithoutImplicit).toNat = (e + 1075).toNat := by
    change (e + (1023 : Nat) + (52 : Nat)).toNat = (e + 1075).toNat
    omega
  have hdigits : m.log2 + 1 = Format.binary64.mantissaBits ↔ m.log2 = 52 := by
    have hvalue : Format.binary64.mantissaBits = 53 := rfl
    omega
  have hroom : ¬ 2 ^ 11 ≤ (e + 1075).toNat + 1 := by omega
  simp only [UnpackedFloat.pack, hbias, hdigits]
  rw [if_neg hroom]
  split <;> rfl

theorem pack_finite_of_lt (h : 971 < e) :
    UnpackedFloat.pack .binary64 (.finite s m e hm) = packedInfinity .binary64 s := by
  have hvalue : (Format.binary64.exponentBias : Int) = 1023 := rfl
  have hfull : 2 ^ 11 ≤ (e + Format.binary64.exponentBias + 52).toNat + 1 := by omega
  simp only [UnpackedFloat.pack]
  exact if_pos hfull

theorem log2_eq_iff : m.log2 = 52 ∧ m ≠ 0 ↔ 2 ^ 52 ≤ m ∧ m < 2 ^ 53 := by
  constructor
  · rintro ⟨h, hne⟩
    exact (Nat.log2_eq_iff hne).mp h
  · rintro ⟨hlow, hhigh⟩
    have hne : m ≠ 0 := by omega
    exact ⟨(Nat.log2_eq_iff hne).mpr ⟨hlow, hhigh⟩, hne⟩

/-- A mantissa of 53 digits is stored without its first digit. -/
theorem parts_ofParts_normal (hlow : -1074 ≤ e) (hhigh : e ≤ 971) (hdigits : 2 ^ 52 ≤ m)
    (hlt : m < 2 ^ 53) : parts (ofParts (.finite s m e hm)) = .finite s m e hm := by
  have hfield : (BitVec.ofNat 11 (e + 1075).toNat).toNat = (e + 1075).toNat := by
    rw [BitVec.toNat_ofNat]
    omega
  have hfraction : (BitVec.ofNat 52 m).toNat = m - 2 ^ 52 := by
    rw [BitVec.toNat_ofNat]
    omega
  have hones : BitVec.ofNat 11 (e + 1075).toNat ≠ -1#11 := fun h => by
    have hfull : (e + 1075).toNat = 2047 := hfield.symm.trans (congrArg BitVec.toNat h)
    omega
  have hzero : BitVec.ofNat 11 (e + 1075).toNat ≠ 0#11 := fun h => by
    have hnone : (e + 1075).toNat = 0 := hfield.symm.trans (congrArg BitVec.toNat h)
    omega
  change UnpackedFloat.unpack .binary64 (UnpackedFloat.pack .binary64 (.finite s m e hm)) = _
  rw [pack_finite hlow hhigh, if_pos (log2_eq_iff.mpr ⟨hdigits, hlt⟩).1]
  simp only [UnpackedFloat.unpack, unpackMantissa_packComponents,
    unpackExponent_packComponents, unpackSign_packComponents, Sign.ofBitVec_toBitVec]
  rw [if_neg hones, if_neg hzero, UnpackedFloat.finite.injEq]
  refine ⟨rfl, ?_, ?_⟩
  · rw [toNat_one_append, hfraction]
    omega
  · change ((BitVec.ofNat 11 (e + 1075).toNat).toNat : Int) - ((1023 : Nat) + (52 : Nat)) = e
    omega

/-- Fewer digits are stored as they are, with a field of 0 for the least exponent. -/
theorem parts_ofParts_least (hlt : m < 2 ^ 52) :
    parts (ofParts (.finite s m (-1074) hm)) = .finite s m (-1074) hm := by
  have hfraction : (BitVec.ofNat 52 m).toNat = m := by
    rw [BitVec.toNat_ofNat]
    omega
  have hsome : BitVec.ofNat 52 m ≠ 0#52 := fun h => by
    have hnone : m = 0 := hfraction.symm.trans (congrArg BitVec.toNat h)
    omega
  have hlog : m.log2 ≠ 52 := fun h => by
    have hdigits := (log2_eq_iff.mp ⟨h, Nat.ne_of_gt hm⟩).1
    omega
  change UnpackedFloat.unpack .binary64 (UnpackedFloat.pack .binary64 (.finite s m (-1074) hm)) = _
  rw [pack_finite (by decide) (by decide), if_neg hlog]
  simp only [UnpackedFloat.unpack, unpackMantissa_packComponents,
    unpackExponent_packComponents, unpackSign_packComponents, Sign.ofBitVec_toBitVec]
  rw [if_neg (by decide), if_pos trivial, dif_neg hsome, UnpackedFloat.finite.injEq]
  exact ⟨rfl, hfraction, rfl⟩

theorem parts_ofParts (h : Canonical u) : parts (ofParts u) = u := by
  cases u with
  | notANumber => rfl
  | infinity s => cases s <;> rfl
  | zero s => cases s <;> rfl
  | finite s m e hm =>
      obtain ⟨hlt, hlow, hhigh, hdigits⟩ := h
      by_cases hnormal : 2 ^ 52 ≤ m
      · exact parts_ofParts_normal hlow hhigh hnormal hlt
      · obtain rfl := hdigits.resolve_right hnormal
        exact parts_ofParts_least (by omega)

theorem parts_ofParts_zero (s : Sign) : parts (ofParts (.zero s)) = .zero s :=
  parts_ofParts (u := .zero s) trivial

theorem parts_ofParts_infinity (s : Sign) : parts (ofParts (.infinity s)) = .infinity s :=
  parts_ofParts (u := .infinity s) trivial

theorem parts_ofParts_of_lt (h : 971 < e) :
    parts (ofParts (.finite s m e hm)) = .infinity s := by
  change UnpackedFloat.unpack .binary64 (UnpackedFloat.pack .binary64 (.finite s m e hm)) = _
  rw [pack_finite_of_lt h]
  cases s <;> rfl

theorem parts_neg (x : Float) : parts (-x) = (parts x).neg :=
  parts_ofParts (canonical_neg (canonical_parts x))

theorem parts_abs (x : Float) : parts x.abs = (parts x).abs :=
  parts_ofParts (canonical_abs (canonical_parts x))

end Double

end Flock
