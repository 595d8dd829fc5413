import Flock.Agent.Body
import Flock.Agent.Cursor

/-!
# Agents and their steps

An agent is a body with a program to run, if it was given one. In each step it
executes at most one action. The step of a cursor can fail only where a wait is
to move a body without a heading; the cursor then stays on the wait, and all
that the search for it has changed is kept.
-/

namespace Flock

/-- What an agent did in one step. -/
structure StepReport (α : Type) where
  /-- The action executed and the number of its node. -/
  executed : Option (Nat × Action α)
  /-- The number of loops that came to their end, in 32 bits. -/
  closed : UInt32
  exhausted : Bool
deriving DecidableEq, Repr

namespace StepReport

variable {α : Type}

def kind? (report : StepReport α) : Option ActionKind := report.executed.map (·.2.kind)

def closedAny (report : StepReport α) : Bool := decide (0 < report.closed)

end StepReport

/-- What a successful step leads to. -/
structure Turn (α : Type) where
  body : Body α
  words : WordStream
  report : StepReport α
deriving DecidableEq, Repr

namespace Cursor

variable {α : Type} [Scalar α]

/-- One tick of a wait. The body moves in each of the ticks; the cursor goes on
with the last. A wait of no ticks only lets the cursor go on. -/
def waitTick (p : Program α) (c : Cursor) (ticks : Nat) (b : Body α) :
    Except (Fault α) (Cursor × Body α) :=
  match c.waitLeft.getD ticks with
  | 0 => .ok (({ c with waitLeft := none } : Cursor).advance p, b)
  | left + 1 => do
    let b ← b.moveStep
    if left = 0 then return (({ c with waitLeft := none } : Cursor).advance p, b)
    else return ({ c with waitLeft := some left }, b)

variable [Circular α]

def execute (p : Program α) (id : AgentId) (view : Surroundings α) (c : Cursor) (b : Body α)
    (words : WordStream) : Action α → Except (Fault α) (Cursor × Body α × WordStream)
  | .wait ticks => do
    let (c, b) ← c.waitTick p ticks.toNat b
    return (c, b, words)
  | action => do
    let (b, words) ← b.perform id view words action
    return (c.advance p, b, words)

/-- One step of a program on behalf of the agent `id`. The cursor is returned
also where the step fails. -/
def step (p : Program α) (id : AgentId) (view : Surroundings α) (c : Cursor) (b : Body α)
    (words : WordStream) : Cursor × Except (Fault α) (Turn α) :=
  let inside := view.inRegion b.position
  let (c, abandoned) := c.closeFinished p inside
  let found := c.seek p inside (hopLimit p)
  let closed := (abandoned + found.closed).toUInt32
  match found.action? with
  | none => (found.cursor, .ok ⟨b, words, none, closed, found.cursor.isExhausted p⟩)
  | some (node, action) =>
    let c := found.cursor.markRan
    match c.execute p id view b words action with
    | .error fault => (c, .error fault)
    | .ok (c, b, words) =>
      (c, .ok ⟨b, words, some (node, action), closed, c.isExhausted p⟩)

end Cursor

/-- A program and how far it has been run. -/
structure Execution (α : Type) where
  program : Program α
  cursor : Cursor
deriving DecidableEq, Repr

namespace Execution

variable {α : Type}

def start (program : Program α) : Execution α := ⟨program, .start⟩

def isExhausted (execution : Execution α) : Bool := execution.cursor.isExhausted execution.program

end Execution

/-- A body and the program that moves it, if there is one. -/
structure Agent (α : Type) where
  body : Body α
  execution : Option (Execution α)
deriving DecidableEq, Repr

namespace Agent

variable {α : Type}

/-- The agent running a program from its start, instead of any other. -/
def bind (agent : Agent α) (program : Program α) : Agent α :=
  { agent with execution := some (.start program) }

/-- Whether the agent has nothing left to run. -/
def isFinished (agent : Agent α) : Bool :=
  match agent.execution with
  | none => true
  | some execution => execution.isExhausted

variable [Scalar α]

/-- An agent at rest, without a program, broadcasting a label. -/
def atPoint (p : Point α) (label : String) : Agent α := ⟨(Body.atPoint p).signal label, none⟩

variable [Circular α]

/-- One step of the agent's program. Without a program nothing happens, and there
is no report. The agent is returned also where the step fails. -/
def step (id : AgentId) (view : Surroundings α) (agent : Agent α) (words : WordStream) :
    Agent α × Except (Fault α) (Option (StepReport α) × WordStream) :=
  match agent.execution with
  | none => (agent, .ok (none, words))
  | some execution =>
    match execution.cursor.step execution.program id view agent.body words with
    | (cursor, .error fault) =>
      ({ agent with execution := some { execution with cursor } }, .error fault)
    | (cursor, .ok turn) =>
      (⟨turn.body, some { execution with cursor }⟩, .ok (some turn.report, turn.words))

end Agent

end Flock
