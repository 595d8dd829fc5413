import Flock.World.Basic

/-!
# Simulations

A simulation drives a world through ticks of equal length until a time budget is
used up. A tick runs if it starts before the end of the budget, even if it ends
after it. The most recent ticks are summed up in a history of bounded length.
-/

namespace Flock

/-- What is kept of a tick. -/
structure Summary (α : Type) where
  /-- The number of the tick, counted from 1. -/
  tick : Nat
  /-- The simulated time after the tick. -/
  elapsed : α
  agentCount : Nat
  activity : Activity
  signalling : Nat
deriving DecidableEq, Repr

/-- A world with a clock and a history. -/
structure Simulation (α : Type) where
  world : World α
  /-- The tick length last asked for. -/
  dt : α
  /-- The time budget last asked for. -/
  budget : α
  /-- The simulated time so far. -/
  elapsed : α
  tickCount : Nat
  /-- Whether a tick length and a budget have been given at all. -/
  configured : Bool
  /-- The most recent ticks, oldest first. -/
  history : List (Summary α)
deriving DecidableEq, Repr

/-- How a run of ticks came to its end. -/
inductive RunEnd (α : Type) where
  /-- The budget is used up. -/
  | completed
  /-- A tick failed, and nothing of that tick took effect. -/
  | failed (fault : Fault α)
  /-- The number of ticks allowed was reached first. -/
  | unfinished
deriving DecidableEq, Repr

/-- A finished run: the simulation after it, what was gathered from its ticks, and
how it ended. -/
structure Run (α β : Type) where
  simulation : Simulation α
  gathered : β
  ending : RunEnd α

namespace Simulation

variable {α : Type} [Scalar α]

/-- A simulation in front of its first tick. -/
def start (world : World α) : Simulation α :=
  ⟨world, Scalar.zero, Scalar.zero, Scalar.zero, 0, false, []⟩

/-- The part of a tick by which the elapsed time may fall short of the budget and
still count as reaching it: one in `10 ^ 9`. -/
def tolerance : α := Scalar.one / Scalar.ofInt 1000000000

/-- Whether the budget leaves no room for another tick. Before one was given
there is nothing to complete. -/
def isCompleted (sim : Simulation α) : Bool :=
  sim.configured && decide (sim.budget ≤ sim.elapsed + tolerance * sim.dt)

/-- The tick length has to be a positive number, the budget one that is not below
zero. -/
def checkTiming (dt budget : α) : Except (Fault α) Unit := do
  Fault.requirePos "dt" dt
  Fault.requireNonneg "total_time" budget

def last? (sim : Simulation α) : Option (Summary α) := sim.history.getLast?

/-- A history with one more tick. The oldest ones make room for it. -/
def remember (capacity : Nat) (history : List (Summary α)) (summary : Summary α) :
    List (Summary α) :=
  history.drop (history.length + 1 - capacity) ++ [summary]

/-- The summary of a tick of length `dt` that has led to `world`. -/
def summarize (sim : Simulation α) (dt : α) (world : World α) (activity : Activity) :
    Summary α where
  tick := sim.tickCount + 1
  elapsed := sim.elapsed + dt
  agentCount := world.agents.size
  activity := activity
  signalling := world.signallingCount

/-- The simulation after a tick that has led to `world`. -/
def commit (sim : Simulation α) (world : World α) (summary : Summary α) : Simulation α :=
  { sim with
    world := world
    elapsed := summary.elapsed
    tickCount := summary.tick
    history := remember sim.world.settings.historyCapacity.toNat sim.history summary }

/-- The simulation with its clock set back. The world stays as it is. -/
def resetClock (sim : Simulation α) : Simulation α :=
  { sim with elapsed := Scalar.zero, tickCount := 0, configured := false, history := [] }

variable [Circular α]

/-- One tick, unless the budget is used up. Tick length and budget are checked
before anything changes. If the tick fails, only they are taken over. -/
def tick (sim : Simulation α) (dt budget : α) :
    Simulation α × Except (Fault α) (Option (Summary α)) :=
  match checkTiming dt budget with
  | .error fault => (sim, .error fault)
  | .ok () =>
    let sim := { sim with dt := dt, budget := budget, configured := true }
    if sim.isCompleted then (sim, .ok none)
    else
      match sim.world.stepAgents with
      | (world, .error fault) => ({ sim with world := world }, .error fault)
      | (world, .ok activity) =>
        let summary := sim.summarize dt world activity
        (sim.commit world summary, .ok (some summary))

/-- Runs ticks until the budget is used up, a tick fails, or `limit` ticks were
run, gathering something from each of them. -/
def runFor {β : Type} (gather : β → Summary α → β) (dt budget : α) :
    Nat → β → Simulation α → Run α β
  | 0, gathered, sim => ⟨sim, gathered, .unfinished⟩
  | limit + 1, gathered, sim =>
    match sim.tick dt budget with
    | (sim, .error fault) => ⟨sim, gathered, .failed fault⟩
    | (sim, .ok none) => ⟨sim, gathered, .completed⟩
    | (sim, .ok (some summary)) => runFor gather dt budget limit (gather gathered summary) sim

/-- The most ticks that a run is let go on for. A clock so far advanced that a
tick no longer moves it would let the run go on for ever. -/
def tickLimit : Nat := UInt64.size

/-- Runs ticks until the budget is used up, counting them. -/
def run (sim : Simulation α) (dt budget : α) : Run α Nat :=
  runFor (fun count _ => count + 1) dt budget tickLimit 0 sim

end Simulation

end Flock
