import Flock.Plane

/-!
# Programs

A program is a tree of actions and loops, held in one array of nodes. The number
of a node is its place in the array, a loop lists the numbers of its children,
and children stand before their loop, so that anything said about a node in
terms of its children can be tabulated in one pass over the array (`tabulate`).
A program never changes once it is built: how far an agent has come in it is
recorded by the agent's cursor.
-/

namespace Flock

/-- What an agent can do in one tick. -/
inductive Action (α : Type) where
  /-- Take up a speed and face a point. -/
  | move (target : Point α) (speed : α)
  /-- Face a random point of the box between two corners and take one step. -/
  | wander (corner1 corner2 : Point α) (speed : α)
  | signal (label : String)
  /-- Stop broadcasting if the label is the one broadcast. -/
  | unsignal (label : String)
  /-- Step toward the peers within a radius, or at random if there are none. -/
  | follow (label : String) (radius speed : α)
  | stop
  /-- Keep the course, one step for each of a number of ticks. -/
  | wait (ticks : UInt32)
deriving DecidableEq, Repr

/-- The kinds of action, as they are named in reports. -/
inductive ActionKind where
  | move
  | wander
  | signal
  | unsignal
  | follow
  | stop
  | wait
deriving DecidableEq, Repr

namespace ActionKind

def name : ActionKind → String
  | move => "move"
  | wander => "random_move"
  | signal => "signal"
  | unsignal => "unsignal"
  | follow => "follow"
  | stop => "stop"
  | wait => "wait"

end ActionKind

namespace Action

def kind {α : Type} : Action α → ActionKind
  | move .. => .move
  | wander .. => .wander
  | signal _ => .signal
  | unsignal _ => .unsignal
  | follow .. => .follow
  | stop => .stop
  | wait _ => .wait

end Action

/-- When a loop comes to its end. -/
inductive Loop where
  /-- After a number of passes over its body. -/
  | times (count : UInt32)
  | forever
  /-- As soon as the agent stands in a region with this label. -/
  | untilIn (region : String)
deriving DecidableEq, Repr

inductive Node (α : Type) where
  | action (action : Action α)
  | block (loop : Loop) (children : List Nat)
deriving DecidableEq, Repr

namespace Node

variable {α : Type}

def action? : Node α → Option (Action α)
  | action a => some a
  | block .. => none

/-- The children of a node; an action has none. -/
def children : Node α → List Nat
  | action _ => []
  | block _ ids => ids

end Node

/-- A tree of nodes. The root is the sequence that is run once, from left to
right. -/
structure Program (α : Type) where
  nodes : Array (Node α)
  root : List Nat
deriving DecidableEq, Repr

namespace Program

variable {α : Type}

/-- The node with a given number. -/
def node? (p : Program α) (id : Nat) : Option (Node α) := p.nodes[id]?

def children (p : Program α) (id : Nat) : List Nat :=
  match p.node? id with
  | some node => node.children
  | none => []

/-- The number of nodes, loops included. -/
def size (p : Program α) : Nat := p.nodes.size

def actionCount (p : Program α) : Nat := p.nodes.countP fun node => node.action?.isSome

/-- A table with one entry for each node, filled in the order of their numbers:
the entry of a node may use those of the nodes before it. -/
def tabulate {β : Type} (p : Program α) (entry : Array β → Node α → β) : Array β :=
  p.nodes.foldl (fun table node => table.push (entry table node)) #[]

/-- The greatest of the numbers `f` gives to the members of a list; 0 if there
are none. -/
def greatest (f : Nat → Nat) (ids : List Nat) : Nat := ids.foldl (fun n id => max n (f id)) 0

/-- How many loops stand inside one another at each node, the node included. -/
def heights (p : Program α) : Array Nat :=
  p.tabulate fun table node =>
    match node with
    | .action _ => 0
    | .block _ ids => 1 + greatest (fun id => table.getD id 0) ids

/-- The greatest number of loops that stand inside one another. -/
def depth (p : Program α) : Nat :=
  let table := p.heights
  greatest (fun id => table.getD id 0) p.root

/-- The numbers met on a walk that visits the pending nodes in order, each before
its children, and stops after a number of visits. -/
def walk (p : Program α) : Nat → List Nat → List Nat
  | 0, _ => []
  | _ + 1, [] => []
  | n + 1, id :: pending => id :: p.walk n (p.children id ++ pending)

/-- All nodes of the tree, a loop before its children. A tree has no more nodes
than the array it is held in, which bounds the walk. -/
def preorder (p : Program α) : List Nat := p.walk p.size p.root

/-- The actions in the order in which they are written. -/
def actions (p : Program α) : List (Action α) :=
  p.preorder.filterMap fun id => p.node? id >>= Node.action?

end Program

end Flock
