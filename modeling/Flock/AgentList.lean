import Flock.Decimal.Reader
import Flock.Plane
import Flock.Text.Blank

/-!
# Agent lists

An agent list is a text with the two coordinates of one agent on each line.
Lines that are blank or start with `#` are passed over, but counted. The first
line that is neither such a line nor a pair of coordinates ends the reading.
-/

namespace Flock

/-- Where an agent is to be placed, and what it broadcasts. -/
structure Placement (α : Type) where
  x : α
  y : α
  label : String
deriving DecidableEq, Repr

namespace Placement

def position {α : Type} (p : Placement α) : Point α := ⟨p.x, p.y⟩

end Placement

/-- What is wrong with a line of an agent list. -/
inductive LineFault where
  | tooFewFields
  | tooManyFields
  | badX
  | badY
  | notFinite
deriving DecidableEq, Repr

namespace LineFault

def reason : LineFault → String
  | tooFewFields => "expected two coordinates"
  | tooManyFields => "expected exactly two coordinates"
  | badX => "x is not a number"
  | badY => "y is not a number"
  | notFinite => "coordinates must be finite"

end LineFault

/-- A line that could not be read: its number among all lines, counted from 1,
and what it holds, without the blanks around it. -/
structure BadLine where
  number : Nat
  content : String
  fault : LineFault
deriving DecidableEq, Repr

namespace BadLine

def message (bad : BadLine) : String :=
  "malformed agent on line " ++ toString bad.number ++ " (" ++ bad.fault.reason ++ "): `" ++
    bad.content ++ "`"

end BadLine

namespace AgentList

/-- A number in a field; the fault says which one it is. -/
def coordinate (fault : LineFault) (field : List Char) : Except LineFault Float :=
  match Decimal.parse? field with
  | some value => .ok value
  | none => .error fault

/-- The agent on a line without blanks around it. -/
def placement (line : List Char) : Except LineFault (Placement Float) :=
  match Text.words line with
  | [first, second] => do
    let x ← coordinate .badX first
    let y ← coordinate .badY second
    if x.isFinite && y.isFinite then .ok ⟨x, y, ""⟩ else .error .notFinite
  | _ :: _ :: _ => .error .tooManyFields
  | _ => .error .tooFewFields

/-- Whether a line holds no agent. -/
def isSkipped (line : List Char) : Bool := line.isEmpty || line.head? == some '#'

/-- The agents on lines of which the first has the given number. -/
def ofLines (number : Nat) : List (List Char) → Except BadLine (List (Placement Float))
  | [] => .ok []
  | raw :: rest =>
    let line := Text.trim raw
    if isSkipped line then ofLines (number + 1) rest
    else
      match placement line with
      | .error fault => .error ⟨number, String.ofList line, fault⟩
      | .ok agent => do return agent :: (← ofLines (number + 1) rest)

def parse (text : String) : Except BadLine (List (Placement Float)) :=
  ofLines 1 (Text.lines text.toList)

end AgentList

end Flock
