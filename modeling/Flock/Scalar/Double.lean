import Flock.Scalar
import Flock.Decimal.Binary

/-!
# Doubles as coordinates

The instance through which programs are run. Cell numbers and cell spans are
read off the exact value of a double, so that they are whole numbers from the
start; cell numbers are kept in the range of 64-bit integers.
-/

namespace Flock

namespace Double

def leastCell : Int := Int64.minValue.toInt

def greatestCell : Int := Int64.maxValue.toInt

/-- The cell of a coordinate measured in cell sizes. A coordinate past either
end of the range of cell numbers falls in the cell at that end, and one that is
not a number falls in cell 0. -/
def cellNumber (x : Float) : Int :=
  match Binary.ofFloat? x with
  | some b => max leastCell (min greatestCell b.floor)
  | none => if x < 0 then leastCell else if 0 < x then greatestCell else 0

/-- The fraction in `[0, 1)` with the upper 52 bits of `word`: they become the
fraction field of a double between 1 and 2, and 1 is taken off. -/
def fraction (word : UInt64) : Float :=
  Float.ofBits ((word >>> 12) ||| ((1023 : UInt64) <<< 52)) - 1

end Double

instance : Scalar Float where
  decidableLE := inferInstance
  decidableLT := inferInstance
  ofInt := Float.ofInt
  isFinite := Float.isFinite
  within distSq radius := decide (distSq.sqrt ≤ radius)
  cellNumber := Double.cellNumber
  ceil? x := (Binary.ofFloat? x).map Binary.ceil
  fraction := Double.fraction

instance : Circular Float where
  cos := Float.cos
  sin := Float.sin
  atan2 := Float.atan2

end Flock
