import Flock.Decimal.Binary

/-!
# The shortest decimal that reads back

A double stands for all reals that round to it. `shortest` finds, in exact
whole-number arithmetic, a decimal in that interval with as few digits as
possible: it goes through the grids `10 ^ p` from coarse to fine, and on each
looks at the two neighbours of the value. The first grid with a neighbour in the
interval wins, because a grid with any point in the interval has a neighbour of
the value in it.
-/

namespace Flock

/-- The number `digits * 10 ^ exponent`. -/
structure Decimal where
  digits : Nat
  exponent : Int
deriving DecidableEq, Repr

/-- Which way a number halfway between two candidates goes. -/
inductive Tie where
  /-- To the candidate with the even last digit. -/
  | toEven
  /-- To the greater candidate. -/
  | up
deriving DecidableEq, Repr

namespace Tie

/-- The choice between `q` and `q + 1`. -/
def choose : Tie → Nat → Nat
  | toEven, q => q + q % 2
  | up, q => q + 1

/-- The whole number nearest to `num / den`. -/
def roundDiv (tie : Tie) (num den : Nat) : Nat :=
  let q := num / den
  let twice := 2 * (num % den)
  if twice < den then q
  else if den < twice then q + 1
  else tie.choose q

/-- The rounded quotient is one of the two neighbours of the exact one. -/
theorem roundDiv_bounds (tie : Tie) (num den : Nat) :
    num / den ≤ tie.roundDiv num den ∧ tie.roundDiv num den ≤ num / den + 1 := by
  unfold roundDiv
  have even : num / den + num / den % 2 ≤ num / den + 1 := by omega
  cases tie <;> simp only [choose] <;> split <;> (try split) <;> omega

end Tie

/-- The reals that round to one double, as multiples of `10 ^ shift`. The ends
belong to the interval if `closed` is set. -/
structure RoundingInterval where
  low : Nat
  value : Nat
  high : Nat
  closed : Bool
  shift : Int
deriving Repr

namespace RoundingInterval

/-- The interval around a double with mantissa `m` reaches half a unit of the
last place up, and as far down unless the neighbour below is nearer. All three
numbers are quarters of that unit, turned into decimals: a negative power of
two is a power of five over a power of ten. -/
def ofBinary (b : Binary) : RoundingInterval :=
  let quarter := b.exponent - 2
  let unit := Nat.pow (if 0 ≤ quarter then 2 else 5) quarter.natAbs
  let below := if b.isNarrowBelow then 1 else 2
  { low := (4 * b.mantissa - below) * unit
    value := 4 * b.mantissa * unit
    high := (4 * b.mantissa + 2) * unit
    closed := b.mantissa % 2 == 0
    shift := if 0 ≤ quarter then 0 else quarter }

/-- Whether the multiple `n` of `10 ^ shift` rounds to the double. -/
def contains (i : RoundingInterval) (n : Nat) : Bool :=
  if i.closed then decide (i.low ≤ n) && decide (n ≤ i.high)
  else decide (i.low < n) && decide (n < i.high)

/-- The multiple of `grid` that is nearest to the value among its two
neighbours in the interval, if there is one, counted in units of `grid`. -/
def onGrid? (i : RoundingInterval) (tie : Tie) (grid : Nat) : Option Nat :=
  let below := i.value / grid
  match i.contains (below * grid), i.contains ((below + 1) * grid) with
  | true, true => some (tie.roundDiv i.value grid)
  | true, false => some below
  | false, true => some (below + 1)
  | false, false => none

/-- The decimal on the coarsest grid among `10 ^ p, …, 10 ^ 0` that has one. -/
def coarsest (i : RoundingInterval) (tie : Tie) : Nat → Decimal
  | 0 => ⟨i.value, i.shift⟩
  | p + 1 =>
    match i.onGrid? tie (Nat.pow 10 (p + 1)) with
    | some n => ⟨n, i.shift + (p + 1 : Nat)⟩
    | none => i.coarsest tie p

end RoundingInterval

namespace Decimal

def digitsOf (n : Nat) : List Char := Nat.toDigits 10 n

/-- The same number without zeros at the end of its digits. -/
def trim (d : Decimal) : Decimal :=
  if d.digits ≠ 0 ∧ d.digits % 10 = 0 then trim ⟨d.digits / 10, d.exponent + 1⟩ else d
termination_by d.digits
decreasing_by omega

/-- A decimal with the fewest digits among those that read back as the double
`b`, and of those the nearest to it. The sign of `b` is left to the caller. -/
def shortest (tie : Tie) (b : Binary) : Decimal :=
  if b.mantissa = 0 then ⟨0, 0⟩
  else
    let i := RoundingInterval.ofBinary b
    (i.coarsest tie ((digitsOf i.value).length - 1)).trim

end Decimal

end Flock
