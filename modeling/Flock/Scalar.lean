/-!
# Coordinates and times

Positions, speeds, radii and times are values of one type `α`, and everything
between the outer layers of the library is written for any such type. The
class `Scalar` lists what is asked of it: the four operations, the order, and
the few questions at which a number meets the integers (which cell of a grid a
coordinate falls in, how many cells a radius spans) or a word of random bits.

The class has no laws. Doubles satisfy few of them, and the statements about
programs and cursors need none; a statement about exact arithmetic is made at
an exact type.
-/

namespace Flock

/-- A type of coordinates, lengths and times. -/
class Scalar (α : Type) extends Add α, Sub α, Mul α, Div α, Neg α, LE α, LT α where
  decidableLE : (a b : α) → Decidable (a ≤ b)
  decidableLT : (a b : α) → Decidable (a < b)
  ofInt : Int → α
  /-- Whether the value is a number that can be stored as a coordinate. -/
  isFinite : α → Bool
  /-- Whether a point at squared distance `d` is at distance at most `r`, written
  `within d r`. Distances are compared, not squares, because squaring `r` can
  round a point of the boundary outside. -/
  within : α → α → Bool
  /-- The number of the unit cell that a value falls in: the largest whole
  number not above it, kept in the range of cell numbers. -/
  cellNumber : α → Int
  /-- The least whole number not below a value, if the value is finite. -/
  ceil? : α → Option Int
  /-- The fraction in `[0, 1)` that the upper bits of a random word stand for. -/
  fraction : UInt64 → α

namespace Scalar

variable {α : Type} [Scalar α]

instance (a b : α) : Decidable (a ≤ b) := decidableLE a b

instance (a b : α) : Decidable (a < b) := decidableLT a b

def zero : α := ofInt 0

def one : α := ofInt 1

/-- A finite value that is not below zero, as a radius or an extent has to be. -/
def isFiniteNonneg (a : α) : Bool := isFinite a && decide (zero ≤ a)

/-- A finite value above zero, as a cell size or a time step has to be. -/
def isFinitePos (a : α) : Bool := isFinite a && decide (zero < a)

/-- The value moved into `[-1, 1]`. One that compares with neither end stays as
it is. -/
def clampUnit (a : α) : α :=
  let low := if a < -one then -one else a
  if one < low then one else low

end Scalar

/-- The circular functions that turn angles into headings and back. They are
kept apart from `Scalar` because an exact type has no canonical choice of them. -/
class Circular (α : Type) where
  cos : α → α
  sin : α → α
  /-- The angle of the vector `(x, y)`, written `atan2 y x`. -/
  atan2 : α → α → α

end Flock
