import Mathlib.Data.Rat.Floor
import Mathlib.Tactic.Linarith
import Mathlib.Tactic.Ring
import Flock.Plane

/-!
# Rational numbers as coordinates

The exact type of coordinates at which statements about distances and times are made.
Sums, quotients and comparisons are those of the numbers themselves, and a point is
within a radius if and only if its squared distance is at most the square of the radius.
Cell numbers are kept in the same range as those of doubles.
-/

namespace Flock

instance : Scalar ℚ where
  decidableLE := inferInstance
  decidableLT := inferInstance
  ofInt n := n
  isFinite _ := true
  within distSq radius := decide (0 ≤ radius ∧ distSq ≤ radius ^ 2)
  cellNumber a := max Double.leastCell (min Double.greatestCell ⌊a⌋)
  ceil? a := some ⌈a⌉
  fraction word := ((word >>> 12).toNat : ℚ) / 2 ^ 52

/-- Circular functions for headings along the axes, with angles in quarter turns. -/
@[reducible] def Circular.quarterTurns : Circular ℚ where
  cos turns := if turns = 0 then 1 else if turns = 2 then -1 else 0
  sin turns := if turns = 1 then 1 else if turns = -1 then -1 else 0
  atan2 y x := if |y| ≤ |x| then if 0 ≤ x then 0 else 2 else if 0 ≤ y then 1 else -1

namespace Scalar

theorem zero_rat : (zero : ℚ) = 0 := Int.cast_zero

theorem isFinitePos_rat_iff {a : ℚ} : isFinitePos a ↔ 0 < a := by
  simp [isFinitePos, isFinite, zero_rat]

theorem within_rat_iff {distSq radius : ℚ} :
    within distSq radius ↔ 0 ≤ radius ∧ distSq ≤ radius ^ 2 := decide_eq_true_iff

theorem cellNumber_mem_rat (a : ℚ) :
    Double.leastCell ≤ cellNumber a ∧ cellNumber a ≤ Double.greatestCell := by
  have hends : Double.leastCell ≤ Double.greatestCell := by decide
  change Double.leastCell ≤ max Double.leastCell (min Double.greatestCell ⌊a⌋) ∧
    max Double.leastCell (min Double.greatestCell ⌊a⌋) ≤ Double.greatestCell
  omega

/-- The cells of two numbers that are at most `s` apart lie at most as many cells apart as
are needed to span `s`. -/
theorem cellNumber_le_add {a b s : ℚ} (h : a ≤ b + s) (hs : 0 ≤ s) :
    cellNumber a ≤ cellNumber b + ⌈s⌉ := by
  have hfloor : ⌊a⌋ ≤ ⌊b⌋ + ⌈s⌉ := by
    rw [← Int.floor_add_intCast]
    exact Int.floor_le_floor (h.trans (add_le_add_right (Int.le_ceil s) b))
  have hspan : 0 ≤ ⌈s⌉ := Int.ceil_nonneg hs
  change max Double.leastCell (min Double.greatestCell ⌊a⌋) ≤
    max Double.leastCell (min Double.greatestCell ⌊b⌋) + ⌈s⌉
  omega

end Scalar

namespace Point

theorem distSq_rat (p q : Point ℚ) : p.distSq q = (p.x - q.x) ^ 2 + (p.y - q.y) ^ 2 := by
  rw [sq, sq]
  rfl

end Point

end Flock
