import Flock.Agent.Body
import Flock.Region
import Flock.World.Grid

/-!
# Views of a world

A view records where every agent stands and what it broadcasts at one moment.
All agents that step in the same tick consult the same view, so what one of them
sees does not depend on which of the others have already stepped.
-/

namespace Flock

/-- What a view records of one agent. -/
structure Sighting (α : Type) where
  id : AgentId
  position : Point α
  label : String
deriving DecidableEq, Repr

/-- The agents at one moment, in stepping order, the grid their positions are
filed in, and the regions of the world. -/
structure View (α : Type) where
  sightings : List (Sighting α)
  grid : Grid α
  regions : List (Region α)

namespace View

variable {α : Type} [Scalar α]

def capture (cellSize : α) (regions : List (Region α)) (sightings : List (Sighting α)) :
    Except (Fault α) (View α) := do
  let grid ← (Grid.empty cellSize).rebuild (sightings.map (·.position))
  return ⟨sightings, grid, regions⟩

def size (v : View α) : Nat := v.sightings.length

def find? (v : View α) (id : AgentId) : Option (Sighting α) := v.sightings.find? (·.id = id)

def position? (v : View α) (id : AgentId) : Option (Point α) := (v.find? id).map (·.position)

def label? (v : View α) (id : AgentId) : Option String := (v.find? id).map (·.label)

/-- The other agents within a radius, in the order of slots. -/
def neighbors (v : View α) (id : AgentId) (radius : α) : List AgentId :=
  match v.sightings.findIdx? (·.id = id) with
  | none => []
  | some self =>
    AgentId.sort ((v.grid.neighbors self radius).filterMap fun found =>
      v.sightings[found.1]?.map (·.id))

/-- Whether the search for the agents near one of them overflows. -/
def overflows (v : View α) (id : AgentId) (radius : α) : Bool :=
  match v.sightings.findIdx? (·.id = id) with
  | none => false
  | some self => v.grid.overflows self radius

/-- The other agents with a label, in the order of slots. -/
def labelled (v : View α) (id : AgentId) (label : String) : List AgentId :=
  AgentId.sort ((v.sightings.filter fun s => s.id ≠ id && s.label = label).map (·.id))

/-- The answers that agents get from this view. -/
def surroundings (v : View α) : Surroundings α where
  neighbors := v.neighbors
  labelled := v.labelled
  position? := v.position?
  inRegion := Region.anyContains v.regions

end View

end Flock
