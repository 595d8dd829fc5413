import Flock.Decimal.Shortest

/-!
# Texts of doubles

Two ways to write a double: with the fewest digits that read back, laid out as a
`Layout` says, and with a fixed number of places, rounded from the exact value.
-/

namespace Flock

/-- How shortest digits are laid out. The exponent in question is that of
scientific notation, where one digit stands before the point. -/
structure Layout where
  /-- Which of two equally near shortest decimals is written. -/
  tie : Tie
  /-- The exponents at which a number is written without one. -/
  isPositional : Int → Bool
  /-- Whether a whole number ends in `.0`. -/
  keepsPoint : Bool
  /-- Whether a positive exponent has a sign. -/
  signsExponent : Bool

def nonFiniteText (x : Float) : String :=
  if x < 0 then "-inf" else if 0 < x then "inf" else "NaN"

namespace Layout

def positional (layout : Layout) (digits : List Char) (exponent : Int) : List Char :=
  let whole := digits.length + exponent
  if 0 ≤ exponent then
    digits ++ List.replicate exponent.toNat '0' ++ (if layout.keepsPoint then ['.', '0'] else [])
  else if 0 < whole then
    digits.take whole.toNat ++ '.' :: digits.drop whole.toNat
  else
    '0' :: '.' :: (List.replicate (-whole).toNat '0' ++ digits)

def scientific (layout : Layout) (digits : List Char) (exponent : Int) : List Char :=
  let power := exponent + digits.length - 1
  let sign := if power < 0 then ['-'] else if layout.signsExponent then ['+'] else []
  let mantissa := match digits with
    | d :: [] => [d]
    | d :: rest => d :: '.' :: rest
    | [] => []
  mantissa ++ 'e' :: (sign ++ Decimal.digitsOf power.natAbs)

def decimal (layout : Layout) (d : Decimal) : List Char :=
  let digits := Decimal.digitsOf d.digits
  if d.digits = 0 ∨ layout.isPositional (d.exponent + digits.length - 1) then
    layout.positional digits d.exponent
  else layout.scientific digits d.exponent

/-- The text of a double. A zero keeps its sign. -/
def render (layout : Layout) (x : Float) : String :=
  match Binary.ofFloat? x with
  | none => nonFiniteText x
  | some b =>
    let text := String.ofList (layout.decimal (Decimal.shortest layout.tie b))
    if b.negative then "-" ++ text else text

/-- Plain numbers, as they stand in messages and program listings: never an
exponent, no point after a whole number. -/
def plain : Layout := ⟨.up, fun _ => true, false, false⟩

/-- Numbers inside a written-out structure: a whole number keeps its point, and
magnitudes below `10 ^ -4` or from `10 ^ 16` on have an exponent. -/
def structural : Layout := ⟨.up, fun e => -4 ≤ e && e ≤ 15, true, false⟩

/-- Numbers in a JSON text. -/
def json : Layout := ⟨.toEven, fun e => -5 ≤ e && e ≤ 15, true, true⟩

end Layout

namespace Decimal

/-- The text of `n / 10 ^ places`, with all its places. -/
def fixedDigits (places n : Nat) : List Char :=
  let digits := digitsOf n
  let padded := List.replicate (places + 1 - digits.length) '0' ++ digits
  let whole := padded.length - places
  padded.take whole ++ '.' :: padded.drop whole

/-- The exact value of a double rounded to a fixed number of places, a half
going to the even last digit. The sign is kept even where only zeros are left. -/
def fixed (places : Nat) (x : Float) : String :=
  match Binary.ofFloat? x with
  | none => nonFiniteText x
  | some b =>
    let scaled := b.mantissa * Nat.pow 10 places
    let n := if 0 ≤ b.exponent then scaled * b.power else Tie.toEven.roundDiv scaled b.power
    let text := String.ofList (fixedDigits places n)
    if b.negative then "-" ++ text else text

end Decimal

end Flock
