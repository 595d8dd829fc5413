import Flock.Decimal.Shortest

/-!
# Reading decimals

A number text is taken apart into sign, digits and exponent, and the decimal so
given is rounded once, to the nearest double.
-/

namespace Flock

namespace Decimal

/-- A decimal digit of ASCII; number texts admit no others. -/
def isDigit (c : Char) : Bool := decide ('0' ≤ c) && decide (c ≤ '9')

def digitValue (c : Char) : Nat := c.toNat - '0'.toNat

/-- The number that a row of digits stands for. -/
def ofDigits (digits : List Char) : Nat :=
  digits.foldl (fun n c => 10 * n + digitValue c) 0

/-- From this power of ten on every number is above all doubles. -/
def overflowPower : Int := 310

/-- Below this power of ten every number is nearer to 0 than to any other double. -/
def underflowPower : Int := -330

/-- The double nearest to a decimal, infinity if it is above all of them.
Decimals far outside the range of doubles are settled by their size alone, so
that an enormous exponent costs nothing. -/
def toFloat (d : Decimal) : Float :=
  let size := (digitsOf d.digits).length + d.exponent
  if d.digits = 0 ∨ size < underflowPower then 0
  else if overflowPower < size then 1 / 0
  else Float.ofScientific d.digits (decide (d.exponent < 0)) d.exponent.natAbs

/-- A whole number with an optional sign, up to the end of the text. -/
def signedDigits? : List Char → Option Int
  | '-' :: rest => unsigned? rest |>.map fun n => -(n : Int)
  | '+' :: rest => unsigned? rest |>.map fun n => (n : Int)
  | rest => unsigned? rest |>.map fun n => (n : Int)
where
  /-- A whole number without a sign, up to the end of the text. -/
  unsigned? (text : List Char) : Option Nat :=
    if text.isEmpty || !text.all isDigit then none else some (ofDigits text)

/-- A whole number that may have a plus sign, at most `greatest`. -/
def natural? (greatest : Nat) (text : List Char) : Option Nat :=
  let digits := match text with
    | '+' :: rest => rest
    | rest => rest
  (signedDigits?.unsigned? digits).filter (· ≤ greatest)

/-- What may follow the digits of a number: nothing, or `e` and a whole number. -/
def exponent? : List Char → Option Int
  | [] => some 0
  | 'e' :: rest => signedDigits? rest
  | 'E' :: rest => signedDigits? rest
  | _ => none

/-- A decimal without a sign: digits with at most one point before, among or
after them, and an exponent if there is one. -/
def magnitude? (text : List Char) : Option Decimal :=
  let whole := text.takeWhile isDigit
  let rest := text.dropWhile isDigit
  let places := match rest with
    | '.' :: tail => tail.takeWhile isDigit
    | _ => []
  let rest := match rest with
    | '.' :: tail => tail.dropWhile isDigit
    | _ => rest
  if whole.isEmpty && places.isEmpty then none
  else
    (exponent? rest).map fun e => ⟨ofDigits (whole ++ places), e - places.length⟩

/-- The values that have names, in letters of any case. -/
def named? (text : List Char) : Option Float :=
  let word := String.ofList (text.map Char.toLower)
  if word = "inf" ∨ word = "infinity" then some (1 / 0)
  else if word = "nan" then some (0 / 0)
  else none

/-- The double that a text stands for: an optional sign, and then a decimal or
the name of a value. Nothing may stand before or after it. -/
def parse? (text : List Char) : Option Float :=
  let unsigned? (body : List Char) : Option Float :=
    (named? body).or ((magnitude? body).map toFloat)
  match text with
  | '-' :: body => (unsigned? body).map (- ·)
  | '+' :: body => unsigned? body
  | body => unsigned? body

end Decimal

end Flock
