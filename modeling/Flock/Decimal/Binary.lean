/-!
# The exact value of a double

A finite double is a whole number times a power of two. `Binary` records that
product, so that rounding, cell numbers and decimal texts can be computed with
whole numbers, without any further rounding.
-/

namespace Flock

/-- The number `mantissa * 2 ^ exponent`, negated if `negative` is set. Zero
has mantissa 0 and keeps its sign. -/
structure Binary where
  negative : Bool
  mantissa : Nat
  exponent : Int
deriving DecidableEq, Repr

namespace Binary

/-- The exponent of the least positive double, `2 ^ (-1074)`. -/
def leastExponent : Int := -1074

/-- The mantissa of a power of two among the normal doubles. -/
def normalMantissa : Nat := 0x10000000000000

/-- The exponent field that the infinities have, and the values that are not
numbers. -/
def specialField : Nat := 0x7ff

/-- The number that the 64 bits of a double stand for: a sign bit, an exponent
field of 11 bits, and a fraction of 52 bits. -/
def ofBits? (bits : UInt64) : Option Binary :=
  let negative := bits >>> 63 == 1
  let field := ((bits >>> 52) &&& 0x7ff).toNat
  let fraction := (bits &&& 0xfffffffffffff).toNat
  if field = specialField then none
  else if field = 0 then some ⟨negative, fraction, leastExponent⟩
  else some ⟨negative, normalMantissa + fraction, leastExponent + (field - 1 : Nat)⟩

/-- The exact value of a double, if it is finite. -/
def ofFloat? (x : Float) : Option Binary := ofBits? x.toBits

/-- Whether the double below in magnitude is nearer than the one above. This
is so for the powers of two, except for the least normal one, below which the
spacing stays the same. -/
def isNarrowBelow (b : Binary) : Bool :=
  b.mantissa == normalMantissa && b.exponent != leastExponent

def signed (b : Binary) : Int := if b.negative then -(b.mantissa : Int) else b.mantissa

/-- The power of two that the mantissa is multiplied by or, if the exponent is
negative, divided by. -/
def power (b : Binary) : Nat := Nat.pow 2 b.exponent.natAbs

def floor (b : Binary) : Int :=
  if 0 ≤ b.exponent then b.signed * b.power else b.signed / b.power

def ceil (b : Binary) : Int := -({ b with negative := !b.negative }).floor

end Binary

end Flock
