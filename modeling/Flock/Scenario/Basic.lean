import Flock.AgentList
import Flock.Program.Builder
import Flock.World.Basic

/-!
# Scenarios

A scenario is everything that is needed to set up a world: settings, agents,
regions, and one program that all agents run.
-/

namespace Flock

/-- The description of a world. -/
structure Scenario (α : Type) where
  settings : Settings α
  agents : List (Placement α)
  regions : List (Region α)
  program : List (Event α)
deriving DecidableEq, Repr

/-- Why a run could not be set up. -/
inductive LoadError (α : Type) where
  /-- A file could not be read, for a reason that the system gives. -/
  | unreadableFile (path reason : String)
  /-- A text is no scenario. -/
  | badScenario
  | badAgentList (bad : BadLine)
  | badProgram (rejection : Rejection α)
  | badWorld (fault : Fault α)
deriving DecidableEq, Repr

namespace LoadError

def message : LoadError Float → String
  | unreadableFile path reason => "failed to read " ++ path ++ ": " ++ reason
  | badScenario => "invalid scenario json"
  | badAgentList bad => bad.message
  | badProgram rejection => "invalid program: " ++ rejection.message
  | badWorld fault => "invalid world: " ++ fault.message

/-- The wording of what an error comes from, if it passes something on. -/
def cause? : LoadError Float → Option String
  | unreadableFile _ reason => some reason
  | badProgram rejection => some rejection.message
  | badWorld fault => some fault.message
  | _ => none

end LoadError

namespace Scenario

variable {α : Type} [Scalar α]

def tree (s : Scenario α) : Except (LoadError α) (Program α) :=
  (Program.ofEvents s.program).mapError .badProgram

/-- The world with the regions added, in order. -/
def addRegions (regions : List (Region α)) (w : World α) : Except (Fault α) (World α) :=
  regions.foldlM (fun w r => return w.addRegion (← Region.create r.label r.shape)) w

/-- The world with the agents placed, in order. -/
def placeAgents (agents : List (Placement α)) (w : World α) : Except (Fault α) (World α) :=
  agents.foldlM (fun w a => w.spawn a.position a.label) w

/-- The world of a scenario without its program: first the settings are checked,
then regions and agents are put in, and then a number of agents at random. -/
def populate (s : Scenario α) (extra : Nat) (entropy : UInt64) : Except (Fault α) (World α) :=
  World.create s.settings entropy >>= addRegions s.regions >>= placeAgents s.agents >>=
    World.spawnRandomly extra

/-- The world of a scenario, with every agent at the start of the program. The
program is checked before the world. -/
def build (s : Scenario α) (extra : Nat) (entropy : UInt64) : Except (LoadError α) (World α) := do
  let program ← s.tree
  let world ← (s.populate extra entropy).mapError .badWorld
  return world.install program

end Scenario

end Flock
