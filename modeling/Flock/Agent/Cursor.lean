import Flock.Program.Basic

/-!
# Cursors

A cursor says how far an agent has come in a program: a place in the top-level
sequence and, for each loop it is inside, a frame with its place in the body of
that loop. The program itself is not part of it, so many agents can share one.

A step looks for the next action in two phases. First the outermost loop that
has come to its end is closed, together with all loops inside it
(`closeFinished`). Then the cursor hops from node to node, into loops and out of
finished ones, until it stands on an action (`seek`). A loop body without any
action would keep it hopping for ever, so the number of hops is bounded by the
size of the program.
-/

namespace Flock

/-- The place of a cursor in one loop that it is inside. -/
structure Frame where
  node : Nat
  /-- The place in the list of its children. -/
  index : Nat
  /-- The passes completed. -/
  passes : Nat
  /-- Whether an action was run in the present pass. -/
  ran : Bool
deriving DecidableEq, Repr

/-- How far an agent has come in a program. -/
structure Cursor where
  /-- The place in the top-level sequence. -/
  index : Nat
  /-- The loops that the cursor is inside, innermost first. -/
  frames : List Frame
  /-- The ticks that an unfinished wait still has to go. -/
  waitLeft : Option Nat
deriving DecidableEq, Repr

/-- The number of passes at which counting stops. -/
def greatestPassCount : Nat := UInt32.size - 1

namespace Frame

variable {α : Type}

def enter (node : Nat) : Frame := ⟨node, 0, 0, false⟩

/-- Whether a loop has come to its end. The regions that the agent stands in are
given by `inside`. A loop with a number of passes and no body has nothing to do
and ends at once. -/
def isDone (p : Program α) (inside : String → Bool) (f : Frame) : Bool :=
  match p.node? f.node with
  | some (.block (.times count) ids) => ids.isEmpty || decide (count.toNat ≤ f.passes)
  | some (.block .forever _) => false
  | some (.block (.untilIn region) _) => inside region
  | _ => false

/-- The number of passes completed when the present one ends. A pass in which no
action was run has left the agent as it was, so the passes after it would run
none either, and a loop with a number of passes goes on to its last. -/
def passesAfter (p : Program α) (f : Frame) : Nat :=
  match p.node? f.node with
  | some (.block (.times count) _) =>
    if f.ran then min (f.passes + 1) greatestPassCount else max f.passes count.toNat
  | _ => min (f.passes + 1) greatestPassCount

/-- The frame moved past the present child. After the last child it starts over
with the first, and a pass is counted. -/
def advance (p : Program α) (f : Frame) : Frame :=
  if f.index + 1 < (p.children f.node).length then { f with index := f.index + 1 }
  else ⟨f.node, 0, f.passesAfter p, false⟩

end Frame

/-- What a cursor finds at its place. -/
inductive Hop (α : Type) where
  /-- It stands on an action. -/
  | reached (node : Nat) (action : Action α)
  /-- There is nothing at its place. -/
  | rest
  | entered (next : Cursor)
  | closed (next : Cursor)
deriving DecidableEq, Repr

/-- The end of a search for the next action: where the cursor has come to, how
many loops were closed on the way, and the action it stands on, if any. -/
structure Found (α : Type) where
  cursor : Cursor
  closed : Nat
  action? : Option (Nat × Action α)
deriving DecidableEq, Repr

namespace Cursor

variable {α : Type}

def start : Cursor := ⟨0, [], none⟩

def depth (c : Cursor) : Nat := c.frames.length

/-- The nodes of the loops that the cursor is inside, outermost first. -/
def activeBlocks (c : Cursor) : List Nat := c.frames.reverse.map (·.node)

/-- The passes completed in the innermost loop. -/
def innermostPasses? (c : Cursor) : Option Nat := c.frames.head?.map (·.passes)

def isExhausted (p : Program α) (c : Cursor) : Bool :=
  c.frames.isEmpty && decide (p.root.length ≤ c.index)

/-- The node at the place of the cursor. -/
def current? (p : Program α) (c : Cursor) : Option Nat :=
  match c.frames with
  | [] => p.root[c.index]?
  | f :: _ => (p.children f.node)[f.index]?

/-- The cursor moved past the node at its place. The top-level sequence does not
start over. -/
def advance (p : Program α) (c : Cursor) : Cursor :=
  match c.frames with
  | [] => { c with index := c.index + 1 }
  | f :: outer => { c with frames := f.advance p :: outer }

/-- The cursor moved past the loop around which the given frames stand. Whatever
is left of a wait goes with the loop. -/
def leave (p : Program α) (c : Cursor) (outer : List Frame) : Cursor :=
  ({ c with frames := outer, waitLeft := none } : Cursor).advance p

/-- The frames around the outermost loop that has come to its end. -/
def aroundDone? (done : Frame → Bool) : List Frame → Option (List Frame)
  | [] => none
  | f :: outer => (aroundDone? done outer).or (if done f then some outer else none)

/-- Moves past a loop that was closed, and closes the loops around it for as long
as that brings them to their end. Returns the place in the top-level sequence,
the frames and the number of loops closed. -/
def settle (p : Program α) (inside : String → Bool) (index : Nat) :
    List Frame → Nat × List Frame × Nat
  | [] => (index + 1, [], 0)
  | f :: outer =>
    let f := f.advance p
    if f.isDone p inside then
      let (index, frames, closed) := settle p inside index outer
      (index, frames, closed + 1)
    else (index, f :: outer, 0)

/-- Closes the outermost loop that has come to its end, abandoning all inside it.
Returns the number of loops closed, those merely abandoned not counted. -/
def closeFinished (p : Program α) (inside : String → Bool) (c : Cursor) : Cursor × Nat :=
  match aroundDone? (·.isDone p inside) c.frames with
  | none => (c, 0)
  | some outer =>
    let (index, frames, closed) := settle p inside c.index outer
    (⟨index, frames, none⟩, closed + 1)

/-- What the cursor finds at its place, where no loop is open. -/
def look (p : Program α) (c : Cursor) : Hop α :=
  match c.current? p with
  | none => .rest
  | some id =>
    match p.node? id with
    | none => .rest
    | some (.action a) => .reached id a
    | some (.block ..) => .entered { c with frames := .enter id :: c.frames }

/-- One hop toward the next action. -/
def hop (p : Program α) (inside : String → Bool) (c : Cursor) : Hop α :=
  match c.frames with
  | [] => c.look p
  | f :: outer => if f.isDone p inside then .closed (c.leave p outer) else c.look p

/-- The cursor after a number of hops, or as soon as it stands on an action or
finds nothing at its place. -/
def seek (p : Program α) (inside : String → Bool) : Nat → Cursor → Found α
  | 0, c => ⟨c, 0, none⟩
  | n + 1, c =>
    match c.hop p inside with
    | .reached node action => ⟨c, 0, some (node, action)⟩
    | .rest => ⟨c, 0, none⟩
    | .entered next => seek p inside n next
    | .closed next =>
      let found := seek p inside n next
      { found with closed := found.closed + 1 }

/-- How many hops a search may take. Each level of nesting can end one pass that
ran an action and begin one that runs none, and such a pass visits every node a
few times at most. -/
def hopLimit (p : Program α) : Nat := 4 * (p.size + 1) * (p.depth + 1)

/-- Records in every open loop that its present pass has run an action. -/
def markRan (c : Cursor) : Cursor :=
  { c with frames := c.frames.map fun f => { f with ran := true } }

end Cursor

end Flock
