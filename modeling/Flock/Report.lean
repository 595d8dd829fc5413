import Flock.Json.Writer
import Flock.Simulation

/-!
# Reports

A report sums up the state of a simulation: the clock, every agent in stepping
order, and the last tick. It has a form in JSON; as there is nothing to read it
back for, no reader goes with it.
-/

namespace Flock

/-- What is reported of an agent. -/
structure AgentReport (α : Type) where
  position : Point α
  label : String
  /-- The angle of the heading, if the agent ever got one. -/
  heading : Option α
  speed : α
  finished : Bool
deriving DecidableEq, Repr

/-- What is reported of a simulation. -/
structure Report (α : Type) where
  ticks : Nat
  elapsed : α
  agents : List (AgentReport α)
  last : Option (Summary α)
deriving DecidableEq, Repr

namespace AgentReport

variable {α : Type} [Scalar α] [Circular α]

def ofAgent (agent : Agent α) : AgentReport α where
  position := agent.body.position
  label := agent.body.label
  heading := agent.body.heading.map (·.angle)
  speed := agent.body.speed
  finished := agent.isFinished

def toJson (r : AgentReport Float) : Json :=
  .object
    [("x", .ofFloat r.position.x),
      ("y", .ofFloat r.position.y),
      ("label", .string r.label),
      ("heading", r.heading.elim .null .ofFloat),
      ("speed", .ofFloat r.speed),
      ("finished", .bool r.finished)]

end AgentReport

namespace Summary

def toJson (s : Summary Float) : Json :=
  .object
    [("tick", .integer s.tick),
      ("elapsed", .ofFloat s.elapsed),
      ("agent_count", .integer s.agentCount),
      ("primitives_executed", .integer s.activity.executed),
      ("blocks_completed", .integer s.activity.closed),
      ("exhausted_programs", .integer s.activity.exhausted),
      ("signalling_agents", .integer s.signalling)]

end Summary

namespace Report

variable {α : Type} [Scalar α] [Circular α]

def ofSimulation (sim : Simulation α) : Report α where
  ticks := sim.tickCount
  elapsed := sim.elapsed
  agents := sim.world.agents.entries.map fun e => .ofAgent e.2
  last := sim.last?

/-- The number of agents that broadcast a label. -/
def signalling {β : Type} (r : Report β) : Nat := r.agents.countP fun a => !a.label.isEmpty

def toJson (r : Report Float) : Json :=
  .object
    [("ticks", .integer r.ticks),
      ("elapsed", .ofFloat r.elapsed),
      ("agents", .array (r.agents.map AgentReport.toJson)),
      ("last_tick", r.last.elim .null Summary.toJson)]

end Report

end Flock
