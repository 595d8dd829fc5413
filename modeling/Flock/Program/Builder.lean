import Flock.Program.Basic

/-!
# Building programs from events

A program is declared one event at a time: an action, the start of a loop, or
the end of the innermost loop that is open. The builder keeps a stack of open
loops. A node gets its number when it is complete, so a loop is numbered after
its children.

An event is first checked on its own (`Event.piece`) and then put in its place
(`Builder.place`). The first event that is refused decides the outcome of the
whole program: `Builder.add` records the rejection and lets nothing more in.
-/

namespace Flock

/-- One declaration of a program, before its arguments are checked. -/
inductive Event (α : Type) where
  | move (target : Point α) (speed : α)
  | wander (corner1 corner2 : Point α) (speed : α)
  | signal (label : String)
  | unsignal (label : String)
  | follow (label : String) (radius speed : α)
  | stop
  | wait (ticks : Int64)
  | startTimes (count : Int64)
  | startUntil (region : String)
  | startForever
  | finish
deriving DecidableEq, Repr

/-- Why a program was refused. -/
inductive Rejection (α : Type) where
  /-- The program ended while loops were open. -/
  | unclosed (count : Nat)
  /-- The end of a loop was declared where none was open. -/
  | unmatchedEnd
  /-- An argument is outside its range. -/
  | badParameter (name : String) (value : α)
deriving DecidableEq, Repr

namespace Rejection

def message : Rejection Float → String
  | unclosed count =>
    "unbalanced program: " ++ toString count ++ " block(s) left open at end of program"
  | unmatchedEnd => "unexpected block end with no open block"
  | badParameter name value => badParameterText name value

end Rejection

/-- What a checked event adds to a program. -/
inductive Piece (α : Type) where
  | action (action : Action α)
  | start (loop : Loop)
  | finish
deriving DecidableEq, Repr

namespace Event

variable {α : Type}

def isAction : Event α → Bool
  | startTimes _ | startUntil _ | startForever | finish => false
  | _ => true

variable [Scalar α]

/-- A number has to be finite. -/
def finite (name : String) (value : α) : Except (Rejection α) α :=
  if Scalar.isFinite value then .ok value else .error (.badParameter name value)

/-- Both coordinates of a point have to be finite. -/
def finitePoint (name : String) (p : Point α) : Except (Rejection α) (Point α) := do
  return ⟨← finite name p.x, ← finite name p.y⟩

/-- A radius has to be finite and not below zero. -/
def radius (value : α) : Except (Rejection α) α := do
  let value ← finite "radius" value
  if value < Scalar.zero then .error (.badParameter "radius" value) else .ok value

/-- A count has to fit into 32 bits. -/
def count (name : String) (value : Int64) : Except (Rejection α) UInt32 :=
  if 0 ≤ value.toInt ∧ value.toInt < UInt32.size then .ok (.ofNat value.toInt.toNat)
  else .error (.badParameter name (Scalar.ofInt value.toInt))

/-- Checks the arguments of an event, in the order in which they are written. -/
def piece : Event α → Except (Rejection α) (Piece α)
  | move target speed => do
    return .action (.move (← finitePoint "target" target) (← finite "speed" speed))
  | wander corner1 corner2 speed => do
    return .action (.wander (← finitePoint "corner1" corner1) (← finitePoint "corner2" corner2)
      (← finite "speed" speed))
  | signal label => .ok (.action (.signal label))
  | unsignal label => .ok (.action (.unsignal label))
  | follow label r speed => do
    return .action (.follow label (← radius r) (← finite "speed" speed))
  | stop => .ok (.action .stop)
  | wait ticks => do return .action (.wait (← count "ticks" ticks))
  | startTimes times => do return .start (.times (← count "times" times))
  | startUntil region => .ok (.start (.untilIn region))
  | startForever => .ok (.start .forever)
  | finish => .ok .finish

end Event

/-- A loop whose end has not been declared yet. -/
structure OpenBlock where
  loop : Loop
  children : List Nat
deriving DecidableEq, Repr

/-- A program under construction: the nodes completed so far, the top-level
sequence, the open loops with the innermost first, and the rejection that has
ended the construction, if there was one. -/
structure Builder (α : Type) where
  nodes : Array (Node α)
  root : List Nat
  blocks : List OpenBlock
  rejection : Option (Rejection α)
deriving DecidableEq, Repr

namespace Builder

variable {α : Type}

def empty : Builder α := ⟨#[], [], [], none⟩

def openCount (b : Builder α) : Nat := b.blocks.length

/-- Numbers a complete node and appends it to the innermost open loop, or to the
top-level sequence if no loop is open. -/
def emit (b : Builder α) (node : Node α) : Builder α :=
  let id := b.nodes.size
  match b.blocks with
  | [] => { b with nodes := b.nodes.push node, root := b.root ++ [id] }
  | block :: outer =>
    { b with
      nodes := b.nodes.push node
      blocks := { block with children := block.children ++ [id] } :: outer }

/-- Puts a checked event in its place. Only the end of a loop can be out of
place. -/
def place (b : Builder α) : Piece α → Except (Rejection α) (Builder α)
  | .action a => .ok (b.emit (.action a))
  | .start loop => .ok { b with blocks := ⟨loop, []⟩ :: b.blocks }
  | .finish =>
    match b.blocks with
    | [] => .error .unmatchedEnd
    | block :: outer => .ok ({ b with blocks := outer }.emit (.block block.loop block.children))

variable [Scalar α]

/-- Checks an event and puts it in its place. -/
def accept (b : Builder α) (event : Event α) : Except (Rejection α) (Builder α) :=
  event.piece >>= b.place

/-- Takes the next event. After a rejection nothing changes any more. -/
def add (b : Builder α) (event : Event α) : Builder α :=
  match b.rejection with
  | some _ => b
  | none =>
    match b.accept event with
    | .ok next => next
    | .error rejection => { b with rejection := some rejection }

/-- The program built, if no event was refused and every loop was closed. -/
def program (b : Builder α) : Except (Rejection α) (Program α) :=
  match b.rejection with
  | some rejection => .error rejection
  | none =>
    if b.blocks.isEmpty then .ok ⟨b.nodes, b.root⟩ else .error (.unclosed b.openCount)

/-- Ends the program. Whether or not it was accepted, the builder starts over. -/
def conclude (b : Builder α) : Except (Rejection α) (Program α) × Builder α :=
  (b.program, empty)

end Builder

namespace Program

variable {α : Type} [Scalar α]

/-- The program declared by a list of events, or the rejection of the first event
that was refused. -/
def ofEvents (events : List (Event α)) : Except (Rejection α) (Program α) := do
  let built ← events.foldlM Builder.accept Builder.empty
  built.program

end Program

end Flock
