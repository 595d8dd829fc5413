import Flock.Program.Basic
import Flock.Random.Uniform

/-!
# Bodies of agents

The body of an agent is what its surroundings can see and what its program acts
on: position, heading, speed and broadcast label. `Body.perform` is the effect
of one action. An action reads the world only through `Surroundings`, which
holds the answers for one moment.
-/

namespace Flock

/-- The handle of an agent. Slots are used again after an agent is removed;
serial numbers never are, so a handle that has gone out of use stays so. -/
structure AgentId where
  slot : Nat
  serial : Nat
deriving DecidableEq, Repr

namespace AgentId

/-- The order in which sets of agents are listed: by slot, and within a slot by
serial number. -/
def before (a b : AgentId) : Bool :=
  decide (a.slot < b.slot) || (decide (a.slot = b.slot) && decide (a.serial ≤ b.serial))

/-- The handles in the order of the agents' slots. -/
def sort (ids : List AgentId) : List AgentId := ids.mergeSort before

theorem before_total (a b : AgentId) : a.before b || b.before a := by
  simp only [before, Bool.or_eq_true, Bool.and_eq_true, decide_eq_true_eq]
  omega

theorem before_trans (a b c : AgentId) (hab : a.before b) (hbc : b.before c) : a.before c := by
  simp only [before, Bool.or_eq_true, Bool.and_eq_true, decide_eq_true_eq] at *
  omega

theorem eq_of_before (a b : AgentId) (hab : a.before b) (hba : b.before a) : a = b := by
  cases a
  cases b
  simp only [before, Bool.or_eq_true, Bool.and_eq_true, decide_eq_true_eq, mk.injEq] at *
  omega

/-- The sorted list depends on which handles there are, not on how they came. -/
theorem sort_eq_of_perm {ids others : List AgentId} (h : ids.Perm others) :
    sort ids = sort others := by
  have sorted (l : List AgentId) : (sort l).Pairwise (·.before ·) :=
    List.pairwise_mergeSort before_trans before_total l
  exact List.Perm.eq_of_pairwise (fun a b _ _ => eq_of_before a b) (sorted ids) (sorted others)
    ((List.mergeSort_perm ids before).trans (h.trans (List.mergeSort_perm others before).symm))

end AgentId

/-- What an agent can ask about the world. Lists are in the order of slots, and
never contain the agent that asks. -/
structure Surroundings (α : Type) where
  /-- The other agents within a radius. -/
  neighbors : AgentId → α → List AgentId
  /-- The other agents with a label. -/
  labelled : AgentId → String → List AgentId
  position? : AgentId → Option (Point α)
  /-- Whether a point lies in a region with a label. -/
  inRegion : Point α → String → Bool

/-- The visible state of an agent. -/
structure Body (α : Type) where
  position : Point α
  heading : Option (Heading α)
  speed : α
  /-- The label broadcast; empty if there is none. -/
  label : String
deriving DecidableEq, Repr

namespace Body

variable {α : Type} [Scalar α]

/-- A body at rest, without heading and label. -/
def atPoint (p : Point α) : Body α := ⟨p, none, Scalar.zero, ""⟩

def isSignalling (b : Body α) : Bool := !b.label.isEmpty

/-- The body at another position, which has to be finite. -/
def setPosition (b : Body α) (p : Point α) : Except (Fault α) (Body α) := do
  p.check
  return { b with position := p }

/-- The body at another speed, which has to be finite. -/
def setSpeed (b : Body α) (speed : α) : Except (Fault α) (Body α) := do
  Fault.requireFinite "speed" speed
  return { b with speed := speed }

def setHeading (b : Body α) (heading : Heading α) : Body α := { b with heading := some heading }

def halt (b : Body α) : Body α := { b with speed := Scalar.zero }

def signal (b : Body α) (label : String) : Body α := { b with label := label }

/-- The body no longer broadcasting a label, if it did. -/
def unsignal (b : Body α) (label : String) : Body α :=
  if b.label = label then { b with label := "" } else b

/-- The body one step of its speed further along its heading. -/
def moveStep (b : Body α) : Except (Fault α) (Body α) :=
  match b.heading with
  | none => .error .noHeading
  | some h => .ok { b with position := b.position.offset (h.dx * b.speed) (h.dy * b.speed) }

variable [Circular α]

def face (b : Body α) (target : Point α) : Body α :=
  b.setHeading (Heading.towards b.position target)

/-- The peers of a following agent: of the neighbours, those that broadcast the
label which the agent itself broadcasts. -/
def peers (id : AgentId) (view : Surroundings α) (radius : α) (b : Body α) : List AgentId :=
  let alike := view.labelled id b.label
  (view.neighbors id radius).filter fun other => alike.contains other

/-- Where a following agent heads: to the middle of its peers, and if there are
none, to a point that was drawn at random. -/
def followTarget (id : AgentId) (view : Surroundings α) (radius : α) (b : Body α)
    (drawn : Point α) : Point α :=
  (Point.centroid ((b.peers id view radius).filterMap view.position?)).getD drawn

/-- Follows the peers within a radius, or wanders. The random point is drawn in
either case, so the words used up do not depend on who is near. -/
def follow (id : AgentId) (view : Surroundings α) (radius speed : α) (b : Body α)
    (words : WordStream) : Except (Fault α) (Body α × WordStream) := do
  let (dx, words) ← words.sampleBetween (-radius) radius
  let (dy, words) ← words.sampleBetween (-radius) radius
  let drawn := b.position.offset dx dy
  let b := { b with speed := speed }
  let b ← (b.face (b.followTarget id view radius drawn)).moveStep
  return (b, words)

/-- Takes one step toward a random point of the box between two corners. -/
def wander (corner1 corner2 : Point α) (speed : α) (b : Body α) (words : WordStream) :
    Except (Fault α) (Body α × WordStream) := do
  let (x, words) ← words.sampleBetween corner1.x corner2.x
  let (y, words) ← words.sampleBetween corner1.y corner2.y
  let b := { b with speed := speed }
  let b ← (b.face ⟨x, y⟩).moveStep
  return (b, words)

/-- The effect of one action on a body. A wait takes its steps under the control
of the cursor and does nothing here. -/
def perform (id : AgentId) (view : Surroundings α) (b : Body α) (words : WordStream) :
    Action α → Except (Fault α) (Body α × WordStream)
  | .move target speed => .ok ({ b with speed := speed }.face target, words)
  | .wander corner1 corner2 speed => b.wander corner1 corner2 speed words
  | .signal label => .ok (b.signal label, words)
  | .unsignal label => .ok (b.unsignal label, words)
  | .follow _ radius speed => b.follow id view radius speed words
  | .stop => .ok (b.halt, words)
  | .wait _ => .ok (b, words)

end Body

end Flock
