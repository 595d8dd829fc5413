import Flock.Plane
import Flock.Proofs.Double.Overflow

/-!
# Squares of differences

Rounding treats both signs alike. So the difference of two doubles is the same either way round
but for its sign (`sameSize_sub_comm`), its square is the same, and two points have one distance
from each other (`Point.distSq_comm`), also where a difference overflows or is not a number.
-/

namespace Flock

namespace Double

open Float.Model Float.Model.UnpackedFloat

variable {u v : UnpackedFloat} {n : Nat}

/-- The same but for the sign. -/
def SameSize (u v : UnpackedFloat) : Prop := u = v ∨ u = v.neg

theorem SameSize.mul_self (h : SameSize u v) :
    UnpackedFloat.mul .binary64 u u = UnpackedFloat.mul .binary64 v v := by
  have hsign (s : Sign) : -s * -s = s * s := by cases s <;> rfl
  rcases h with rfl | rfl
  · rfl
  · cases v <;> simp only [UnpackedFloat.neg, UnpackedFloat.mul, hsign]

theorem parts_round_neg (s : Sign) (hn : 0 < n) (e : Int) :
    parts (ofParts (.round .binary64 (-s) n e)) =
      (parts (ofParts (.round .binary64 s n e))).neg := by
  have hleast := le_target n e
  have hdigits := digits_of_floorAt_le hn (floorAt_le_roundedAt n e)
  have hassemble {r : Nat} {t : Int} (hlt : r < 2 ^ 53) (ht : -1074 ≤ t)
      (hdigits : t = -1074 ∨ 2 ^ 52 ≤ r) :
      parts (ofParts (assemble (-s) r t)) = (parts (ofParts (assemble s r t))).neg := by
    rcases Nat.eq_zero_or_pos r with rfl | hr
    · rw [parts_ofParts_assemble_zero, parts_ofParts_assemble_zero]
      rfl
    · rw [parts_ofParts_assemble hr hlt ht hdigits, parts_ofParts_assemble hr hlt ht hdigits]
      split <;> rfl
  rw [round_eq _ hn, round_eq _ hn, carry, carry]
  split_ifs with hfits
  · exact hassemble hfits hleast hdigits
  · exact hassemble (by decide) (by omega) (.inr le_rfl)

theorem sameSize_normalize_neg (a : Int) (e : Int) (s : Sign) :
    SameSize (parts (ofParts (.normalize .binary64 (-a) e s)))
      (parts (ofParts (.normalize .binary64 a e s))) := by
  unfold UnpackedFloat.normalize
  rcases lt_trichotomy a 0 with hneg | rfl | hpos
  · rw [Int.compare_eq_lt.mpr hneg, Int.compare_eq_gt.mpr (Int.neg_pos_of_neg hneg)]
    exact .inr (parts_round_neg .negative (by omega) e)
  · exact .inl rfl
  · rw [Int.compare_eq_gt.mpr hpos, Int.compare_eq_lt.mpr (Int.neg_neg_of_pos hpos), Int.neg_neg]
    exact .inr (parts_round_neg .positive (by omega) e)

/-- Where one of the two is zero or not finite, their difference is not rounded. -/
theorem sameSize_of_canonical (h : SameSize u v) (hv : Canonical v) :
    SameSize (parts (ofParts u)) (parts (ofParts v)) := by
  have hu : Canonical u := by
    rcases h with rfl | rfl
    · exact hv
    · exact canonical_neg hv
  rwa [parts_ofParts hu, parts_ofParts hv]

theorem sameSize_sub_comm (x y : Float) : SameSize (parts (x - y)) (parts (y - x)) := by
  have hx := canonical_parts x
  have hy := canonical_parts y
  rw [sub_eq, sub_eq]
  generalize parts x = u at hx ⊢
  generalize parts y = v at hy ⊢
  have infinite (s : Sign) : SameSize (.infinity s) (.infinity (-s)) := by
    cases s <;> exact .inr rfl
  cases u with
  | notANumber => cases v <;> exact .inl rfl
  | infinity s => cases v with
    | notANumber => exact .inl rfl
    | infinity t => cases s <;> cases t <;> first | exact .inl rfl | exact .inr rfl
    | _ => exact sameSize_of_canonical (infinite s) trivial
  | zero s => cases v with
    | notANumber => exact .inl rfl
    | infinity t => exact sameSize_of_canonical (.inr rfl) trivial
    | zero t => cases s <;> cases t <;> first | exact .inl rfl | exact .inr rfl
    | finite t n f hn => exact sameSize_of_canonical (.inr rfl) hy
  | finite s m e hm => cases v with
    | notANumber => exact .inl rfl
    | infinity t => exact sameSize_of_canonical (.inr rfl) trivial
    | zero t =>
        refine sameSize_of_canonical (.inr ?_) (canonical_neg hx)
        cases s <;> rfl
    | finite t n f hn =>
        have hneg (a b : Int) : a - b = -(b - a) := (Int.neg_sub b a).symm
        have hsub {s t : Sign} {m n : Nat} {e f : Int} {hm : 0 < m} {hn : 0 < n} :
            UnpackedFloat.sub .binary64 (.finite s m e hm) (.finite t n f hn) =
              .normalize .binary64 (s.apply (m <<< (e - min e f).toNat : Nat) -
                t.apply (n <<< (f - min e f).toNat : Nat)) (min e f) .positive := rfl
        rw [hsub, hsub, hneg, min_comm f e]
        exact sameSize_normalize_neg _ _ _

/-- The square of a difference does not depend on its order. -/
theorem sub_mul_self_comm (x y : Float) : (x - y) * (x - y) = (y - x) * (y - x) := by
  rw [mul_eq, mul_eq (y - x), (sameSize_sub_comm x y).mul_self]

end Double

/-- Two points have the same distance from each other. -/
theorem Point.distSq_comm (p q : Point Float) : p.distSq q = q.distSq p := by
  rw [Point.distSq, Point.distSq, Double.sub_mul_self_comm p.x, Double.sub_mul_self_comm p.y]

end Flock
