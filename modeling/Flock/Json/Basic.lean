/-!
# JSON values

A JSON value as it stands in a text: objects keep their entries in order, and
keys may be repeated. Whole numbers are kept exactly, apart from numbers written
with a fraction or an exponent, which are doubles.

A text can be well formed and still stand for no value, as a number above all
doubles or a string with half a surrogate pair does. Such a part reads as
`unreadable`, so that it does no harm where nobody asks for it.
-/

namespace Flock

inductive Json where
  | null
  | bool (value : Bool)
  | integer (value : Int)
  | real (value : Float)
  | string (value : String)
  | array (items : List Json)
  | object (entries : List (String × Json))
  | unreadable

namespace Json

mutual

/-- How many arrays and objects stand inside one another, the outermost
included. -/
def nesting : Json → Nat
  | array items => 1 + nestingItems items
  | object entries => 1 + nestingEntries entries
  | _ => 0

def nestingItems : List Json → Nat
  | [] => 0
  | item :: rest => max item.nesting (nestingItems rest)

def nestingEntries : List (String × Json) → Nat
  | [] => 0
  | (_, value) :: rest => max value.nesting (nestingEntries rest)

end

mutual

/-- Whether every part of a value can be read. -/
def isReadable : Json → Bool
  | array items => readableItems items
  | object entries => readableEntries entries
  | unreadable => false
  | _ => true

def readableItems : List Json → Bool
  | [] => true
  | item :: rest => item.isReadable && readableItems rest

def readableEntries : List (String × Json) → Bool
  | [] => true
  | (_, value) :: rest => value.isReadable && readableEntries rest

end

/-- A double as a value; there is none for those that are not finite. -/
def ofFloat (x : Float) : Json := if x.isFinite then real x else null

end Json

end Flock
