import Flock.Decimal.Reader
import Flock.Json.Basic

/-!
# Reading JSON

The reader takes exactly the texts of the JSON grammar: one value, with nothing
but blanks around it. It knows the four JSON blanks only, admits no control
characters in strings, and no zeros in front of a number.
-/

namespace Flock

namespace Json

def isBlank (c : Char) : Bool := c == ' ' || c == '\n' || c == '\r' || c == '\t'

def skipBlanks (text : List Char) : List Char := text.dropWhile isBlank

def hexValue? (c : Char) : Option Nat :=
  if Decimal.isDigit c then some (Decimal.digitValue c)
  else if 'a' ≤ c ∧ c ≤ 'f' then some (c.toNat - 'a'.toNat + 10)
  else if 'A' ≤ c ∧ c ≤ 'F' then some (c.toNat - 'A'.toNat + 10)
  else none

/-- The number that four hexadecimal digits stand for. -/
def hexQuad? (a b c d : Char) : Option Nat := do
  return (((← hexValue? a) * 16 + (← hexValue? b)) * 16 + (← hexValue? c)) * 16 + (← hexValue? d)

/-- The character that a backslash and a letter stand for. -/
def escaped? (c : Char) : Option Char :=
  if c = '\x22' ∨ c = '\\' ∨ c = '/' then some c
  else if c = 'b' then some '\x08'
  else if c = 'f' then some '\x0c'
  else if c = 'n' then some '\n'
  else if c = 'r' then some '\r'
  else if c = 't' then some '\t'
  else none

/-- The code units of a string up to its closing quote, and the text after it. A
character stands for its code point, and an escape of four digits for the number
given, which may be half of a surrogate pair. -/
def codeUnits? : List Char → Option (List Nat × List Char)
  | [] => none
  | '\x22' :: rest => some ([], rest)
  | '\\' :: 'u' :: a :: b :: c :: d :: rest => do
    let unit ← hexQuad? a b c d
    let (units, rest) ← codeUnits? rest
    return (unit :: units, rest)
  | '\\' :: c :: rest => do
    let char ← escaped? c
    let (units, rest) ← codeUnits? rest
    return (char.toNat :: units, rest)
  | c :: rest =>
    if c.toNat < 0x20 then none
    else do
      let (units, rest) ← codeUnits? rest
      return (c.toNat :: units, rest)

/-- Whether a code unit is the first half of a surrogate pair. -/
def isHigh (unit : Nat) : Bool := decide (0xD800 ≤ unit) && decide (unit < 0xDC00)

/-- Whether a code unit is the second half of a surrogate pair. -/
def isLow (unit : Nat) : Bool := decide (0xDC00 ≤ unit) && decide (unit < 0xE000)

/-- The characters that code units stand for, two halves of a surrogate pair
giving one. A half on its own stands for nothing. -/
def joinUnits? : List Nat → Option (List Char)
  | [] => some []
  | high :: low :: rest =>
    if isHigh high && isLow low then
      (joinUnits? rest).map
        (Char.ofNat (0x10000 + (high - 0xD800) * 0x400 + (low - 0xDC00)) :: ·)
    else if isHigh high || isLow high then none
    else (joinUnits? (low :: rest)).map (Char.ofNat high :: ·)
  | unit :: [] => if isHigh unit || isLow unit then none else some [Char.ofNat unit]

/-- A string after its opening quote, and the text after it. The string is absent
if its code units stand for no characters. -/
def string? (text : List Char) : Option (Option String × List Char) := do
  let (units, rest) ← codeUnits? text
  return ((joinUnits? units).map String.ofList, rest)

/-- The digits in front of a number without zeros ahead of it. -/
def wholeDigits? (text : List Char) : Option (List Char × List Char) :=
  match text with
  | '0' :: rest => some (['0'], rest)
  | _ =>
    let digits := text.takeWhile Decimal.isDigit
    if digits.isEmpty then none else some (digits, text.dropWhile Decimal.isDigit)

/-- The digits after a point, if there is one; there has to be at least one. -/
def fractionDigits? (text : List Char) : Option (Option (List Char) × List Char) :=
  match text with
  | '.' :: rest =>
    let digits := rest.takeWhile Decimal.isDigit
    if digits.isEmpty then none else some (some digits, rest.dropWhile Decimal.isDigit)
  | _ => some (none, text)

/-- The exponent after an `e`, if there is one, with an optional sign and at least
one digit. -/
def exponentPart? (text : List Char) : Option (Option Int × List Char) :=
  match text with
  | 'e' :: rest => digits rest
  | 'E' :: rest => digits rest
  | _ => some (none, text)
where
  /-- The exponent itself. -/
  digits (text : List Char) : Option (Option Int × List Char) :=
    match text with
    | '-' :: rest => (unsigned rest).map fun (n, rest) => (some (-(n : Int)), rest)
    | '+' :: rest => (unsigned rest).map fun (n, rest) => (some (n : Int), rest)
    | rest => (unsigned rest).map fun (n, rest) => (some (n : Int), rest)
  /-- The digits of the exponent. -/
  unsigned (text : List Char) : Option (Nat × List Char) :=
    let digits := text.takeWhile Decimal.isDigit
    if digits.isEmpty then none
    else some (Decimal.ofDigits digits, text.dropWhile Decimal.isDigit)

/-- The value of a double; there is none for one that is too large. -/
def finiteReal (negative : Bool) (magnitude : Float) : Json :=
  if magnitude.isFinite then real (if negative then -magnitude else magnitude) else unreadable

/-- The value of a number text, taken apart. A number without fraction and
exponent is a whole number as far as 64 bits go; the exception is a zero with a
sign, which only a double can keep. -/
def numberValue (negative : Bool) (whole : List Char) (places : Option (List Char))
    (exponent : Option Int) : Json :=
  match places, exponent with
  | none, none =>
    let n := Decimal.ofDigits whole
    if negative && n == 0 then real (-0.0)
    else if negative && decide (Int64.minValue.toInt ≤ -(n : Int)) then integer (-(n : Int))
    else if !negative && decide (n < UInt64.size) then integer n
    else finiteReal negative (Decimal.toFloat ⟨n, 0⟩)
  | _, _ =>
    let places := places.getD []
    finiteReal negative
      (Decimal.toFloat ⟨Decimal.ofDigits (whole ++ places), exponent.getD 0 - places.length⟩)

/-- A number and the text after it. -/
def number? (text : List Char) : Option (Json × List Char) := do
  let negative := text.head? == some '-'
  let (whole, rest) ← wholeDigits? (if negative then text.tail else text)
  let (places, rest) ← fractionDigits? rest
  let (exponent, rest) ← exponentPart? rest
  return (numberValue negative whole places exponent, rest)

/-- An object made of its entries, which is unreadable if a key is. -/
def ofEntries (entries : List (Option String × Json)) : Json :=
  match entries.mapM fun (key, value) => key.map (·, value) with
  | some entries => object entries
  | none => unreadable

mutual

/-- A value and the text after it. The number bounds the recursion. -/
def value? : Nat → List Char → Option (Json × List Char)
  | 0, _ => none
  | n + 1, text =>
    match skipBlanks text with
    | '\x7b' :: rest =>
      match skipBlanks rest with
      | '\x7d' :: rest => some (object [], rest)
      | rest => do
        let (entries, rest) ← entries? n rest
        return (ofEntries entries, rest)
    | '\x5b' :: rest =>
      match skipBlanks rest with
      | '\x5d' :: rest => some (array [], rest)
      | rest => do
        let (items, rest) ← items? n rest
        return (array items, rest)
    | '\x22' :: rest => do
      let (s, rest) ← string? rest
      return (s.elim unreadable string, rest)
    | 'n' :: 'u' :: 'l' :: 'l' :: rest => some (null, rest)
    | 't' :: 'r' :: 'u' :: 'e' :: rest => some (bool true, rest)
    | 'f' :: 'a' :: 'l' :: 's' :: 'e' :: rest => some (bool false, rest)
    | rest => number? rest

/-- The items of an array from some item on, to the closing bracket. -/
def items? : Nat → List Char → Option (List Json × List Char)
  | 0, _ => none
  | n + 1, text => do
    let (item, rest) ← value? n text
    match skipBlanks rest with
    | ',' :: rest =>
      let (items, rest) ← items? n rest
      return (item :: items, rest)
    | '\x5d' :: rest => return ([item], rest)
    | _ => none

/-- The entries of an object from some entry on, to the closing brace. -/
def entries? : Nat → List Char → Option (List (Option String × Json) × List Char)
  | 0, _ => none
  | n + 1, text =>
    match skipBlanks text with
    | '\x22' :: rest => do
      let (key, rest) ← string? rest
      match skipBlanks rest with
      | ':' :: rest =>
        let (value, rest) ← value? n rest
        match skipBlanks rest with
        | ',' :: rest =>
          let (entries, rest) ← entries? n rest
          return ((key, value) :: entries, rest)
        | '\x7d' :: rest => return ([(key, value)], rest)
        | _ => none
      | _ => none
    | _ => none

end

/-- The value that a text stands for. Every level of nesting and every item takes
at least one character, and at most two steps of the recursion. -/
def parse? (text : String) : Option Json := do
  let chars := text.toList
  let (value, rest) ← value? (2 * chars.length + 2) chars
  if (skipBlanks rest).isEmpty then some value else none

end Json

end Flock
