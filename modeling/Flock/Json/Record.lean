import Flock.Json.Basic

/-!
# Records in JSON

A record is written as an object with its fields as keys, or as an array of its
fields in the order in which they are declared. In an object, keys that are no
fields are passed over whatever stands behind them, and no field may occur
twice. An array may break off early, but not go on after the last field. Whether
a field may be missing is for the record to say.
-/

namespace Flock

namespace Json

/-- The value behind the first occurrence of a key. -/
def lookup? (key : String) (entries : List (String × Json)) : Option Json :=
  (entries.find? (·.1 = key)).map (·.2)

/-- The values of the declared fields of a record, in the order of declaration. -/
def fields? (names : List String) : Json → Option (List (Option Json))
  | object entries =>
    if names.all fun name => decide (entries.countP (·.1 = name) ≤ 1) then
      some (names.map fun name => lookup? name entries)
    else none
  | array items =>
    if items.length ≤ names.length then
      some (items.map some ++ List.replicate (names.length - items.length) none)
    else none
  | _ => none

/-- Reads a field that has a default. -/
def orDefault {β : Type} (default : β) (read? : Json → Option β) : Option Json → Option β
  | none => some default
  | some value => read? value

/-- A double. A whole number stands for the double of its value. -/
def float? : Json → Option Float
  | real x => some x
  | integer n => some (Float.ofInt n)
  | _ => none

/-- A whole number between two bounds, written without fraction and exponent. -/
def integerBetween? (low high : Int) : Json → Option Int
  | integer n => if low ≤ n ∧ n ≤ high then some n else none
  | _ => none

def int64? (value : Json) : Option Int64 :=
  (integerBetween? Int64.minValue.toInt Int64.maxValue.toInt value).map Int64.ofInt

def uint64? (value : Json) : Option UInt64 :=
  (integerBetween? 0 (UInt64.size - 1) value).map fun n => UInt64.ofNat n.toNat

def asString? : Json → Option String
  | string s => some s
  | _ => none

/-- An array of values that are all read in the same way. -/
def list? {β : Type} (read? : Json → Option β) : Json → Option (List β)
  | array items => items.mapM read?
  | _ => none

/-- A value that may be absent, which is written as `null`. -/
def nullable? {β : Type} (read? : Json → Option β) : Json → Option (Option β)
  | null => some none
  | value => (read? value).map some

end Json

end Flock
