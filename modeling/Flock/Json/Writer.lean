import Flock.Decimal.Layout
import Flock.Json.Basic

/-!
# Writing JSON

Two forms of the same value: compact, without any blank, and indented, with one
item to a line.
-/

namespace Flock

namespace Json

/-- The digits of the two lowest hexadecimal places. -/
def hexPair (n : Nat) : String :=
  let digits := Nat.toDigits 16 n
  String.ofList (List.replicate (2 - digits.length) '0' ++ digits)

/-- The form of a character inside a string: quotes, backslashes and control
characters are escaped, all else stands for itself. -/
def escape (c : Char) : String :=
  if c = '\x22' then "\\\x22"
  else if c = '\\' then "\\\\"
  else if c = '\x08' then "\\b"
  else if c = '\x0c' then "\\f"
  else if c = '\n' then "\\n"
  else if c = '\r' then "\\r"
  else if c = '\t' then "\\t"
  else if c.toNat < 0x20 then "\\u00" ++ hexPair c.toNat
  else String.singleton c

def quote (s : String) : String := "\x22" ++ String.join (s.toList.map escape) ++ "\x22"

/-- A value that has no parts. A part that could not be read is written as the
absent value. -/
def writeAtom : Json → String
  | bool true => "true"
  | bool false => "false"
  | integer n => toString n
  | real x => if x.isFinite then Layout.json.render x else "null"
  | string s => quote s
  | _ => "null"

mutual

/-- The form without blanks. -/
def compact : Json → String
  | array items => "[" ++ ",".intercalate (compactItems items) ++ "]"
  | object entries => "\x7b" ++ ",".intercalate (compactEntries entries) ++ "\x7d"
  | atom => writeAtom atom

def compactItems : List Json → List String
  | [] => []
  | item :: rest => item.compact :: compactItems rest

def compactEntries : List (String × Json) → List String
  | [] => []
  | (key, value) :: rest => (quote key ++ ":" ++ value.compact) :: compactEntries rest

end

/-- A list of parts in brackets, each on a line of its own and set in by one step
more than the brackets are. -/
def indentedBlock (opening closing : String) (level : Nat) (parts : List String) : String :=
  if parts.isEmpty then opening ++ closing
  else
    let blanks (n : Nat) := String.ofList (List.replicate (2 * n) ' ')
    opening ++ "\n" ++ ",\n".intercalate (parts.map (blanks (level + 1) ++ ·)) ++ "\n" ++
      blanks level ++ closing

mutual

/-- The form with one item to a line, at a level of indentation. -/
def indented (level : Nat) : Json → String
  | array items => indentedBlock "[" "]" level (indentedItems (level + 1) items)
  | object entries => indentedBlock "\x7b" "\x7d" level (indentedEntries (level + 1) entries)
  | atom => writeAtom atom

def indentedItems (level : Nat) : List Json → List String
  | [] => []
  | item :: rest => item.indented level :: indentedItems level rest

def indentedEntries (level : Nat) : List (String × Json) → List String
  | [] => []
  | (key, value) :: rest =>
    (quote key ++ ": " ++ value.indented level) :: indentedEntries level rest

end

def pretty (value : Json) : String := value.indented 0

end Json

end Flock
