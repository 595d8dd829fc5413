import Flock.Agent.Step
import Flock.World.Roster
import Flock.World.Settings
import Flock.World.View

/-!
# Worlds and their ticks

A world holds agents, regions and the stream of random words that all agents
share. In a tick every agent steps once, in the order of arrival, against the
view of the world at the start of the tick. The tick works on copies: if any
agent fails, nothing of it takes effect.
-/

namespace Flock

/-- What the agents did in one tick. -/
structure Activity where
  /-- The number of agents that executed an action. -/
  executed : Nat
  /-- The number of loops that came to their end. -/
  closed : Nat
  /-- The number of agents whose program has nothing left to run. -/
  exhausted : Nat
deriving DecidableEq, Repr

namespace Activity

def none : Activity := ⟨0, 0, 0⟩

/-- The activity with one more step recorded. An agent without a program makes
no report. -/
def record {α : Type} (a : Activity) : Option (StepReport α) → Activity
  | .none => a
  | some report =>
    { executed := a.executed + (if report.executed.isSome then 1 else 0)
      closed := a.closed + report.closed.toNat
      exhausted := a.exhausted + (if report.exhausted then 1 else 0) }

end Activity

/-- Agents, regions and random words. -/
structure World (α : Type) where
  settings : Settings α
  words : WordStream
  agents : Roster (Agent α)
  regions : List (Region α)
deriving DecidableEq, Repr

namespace World

variable {α : Type} [Scalar α]

/-- A world without agents and regions. The word `entropy` seeds it if its
settings have no seed. -/
def create (settings : Settings α) (entropy : UInt64) : Except (Fault α) (World α) := do
  settings.check
  return ⟨settings, settings.words entropy, .empty, []⟩

def add (w : World α) (agent : Agent α) : World α := { w with agents := w.agents.insert agent }

/-- Places an agent that broadcasts a label. Its position has to be finite;
otherwise there is no new world and no handle is used up. -/
def spawn (w : World α) (p : Point α) (label : String) : Except (Fault α) (World α) := do
  p.check
  return w.add (Agent.atPoint p label)

/-- A random place within the spawn extent of the axes. With an extent of zero
there is only one place, and no word is drawn. -/
def randomPlace (w : World α) : Except (Fault α) (Point α × WordStream) :=
  let extent := w.settings.spawnExtent
  if Scalar.zero < extent then do
    let (x, words) ← w.words.sampleRange (-extent) extent
    let (y, words) ← words.sampleRange (-extent) extent
    return (⟨x, y⟩, words)
  else .ok (.origin, w.words)

/-- Places an agent without a label at random. -/
def spawnRandom (w : World α) : Except (Fault α) (World α) := do
  let (p, words) ← w.randomPlace
  return { w with words := words }.add (Agent.atPoint p "")

/-- Places a number of agents at random. -/
def spawnRandomly : Nat → World α → Except (Fault α) (World α)
  | 0, w => .ok w
  | n + 1, w => w.spawnRandom >>= spawnRandomly n

def agent? (w : World α) (id : AgentId) : Option (Agent α) := w.agents.find? id

def updateAgent (w : World α) (id : AgentId) (change : Agent α → Agent α) : World α :=
  { w with agents := w.agents.update id change }

def remove (w : World α) (id : AgentId) : World α := { w with agents := w.agents.erase id }

def addRegion (w : World α) (region : Region α) : World α :=
  { w with regions := w.regions ++ [region] }

def inRegion (w : World α) (p : Point α) (label : String) : Bool :=
  Region.anyContains w.regions p label

def install (w : World α) (program : Program α) : World α :=
  { w with agents := w.agents.updateAll (·.bind program) }

/-- The world with one agent starting a program. -/
def bind (w : World α) (id : AgentId) (program : Program α) : Except (Fault α) (World α) :=
  match w.agent? id with
  | none => .error .unknownAgent
  | some _ => .ok (w.updateAgent id (·.bind program))

def sightings (w : World α) : List (Sighting α) :=
  w.agents.entries.map fun e => ⟨e.1, e.2.body.position, e.2.body.label⟩

def view (w : World α) : Except (Fault α) (View α) :=
  View.capture w.settings.cellSize w.regions w.sightings

def signallingCount (w : World α) : Nat := w.agents.entries.countP (·.2.body.isSignalling)

end World

/-- A tick under way. Agents step as copies, with a copy of the random words; the
world is written to only when all of them have stepped. -/
structure Staging (α : Type) where
  world : World α
  words : WordStream
  /-- The copies that have stepped, the last one first. -/
  stepped : List (AgentId × Agent α)
  activity : Activity
deriving DecidableEq, Repr

namespace Staging

variable {α : Type}

/-- A tick in which no agent has stepped yet. -/
def start (w : World α) : Staging α := ⟨w, w.words, [], .none⟩

/-- The world with the copies in the place of its agents. -/
def commit (s : Staging α) : World α :=
  { s.world with agents := { s.world.agents with entries := s.stepped.reverse }, words := s.words }

variable [Scalar α] [Circular α]

/-- Steps a copy of one agent. The words that it leaves go to the next. A copy that
fails is dropped, whatever its step has changed in it. -/
def stepOne (view : Surroundings α) (s : Staging α) (id : AgentId) (agent : Agent α) :
    Staging α × Option (Fault α) :=
  match agent.step id view s.words with
  | (_, .error fault) => (s, some fault)
  | (copy, .ok (report, words)) =>
    ({ s with
        words := words
        stepped := (id, copy) :: s.stepped
        activity := s.activity.record report }, none)

/-- Steps agents one after the other. The first fault ends the round. -/
def stepAll (view : Surroundings α) :
    List (AgentId × Agent α) → Staging α → Staging α × Option (Fault α)
  | [], s => (s, none)
  | (id, agent) :: rest, s =>
    match s.stepOne view id agent with
    | (s, some fault) => (s, some fault)
    | (s, none) => stepAll view rest s

end Staging

namespace World

variable {α : Type} [Scalar α] [Circular α]

/-- Steps every agent once. The world is returned also where one of them fails. -/
def stepAgents (w : World α) : World α × Except (Fault α) Activity :=
  match w.view with
  | .error fault => (w, .error fault)
  | .ok view =>
    match (Staging.start w).stepAll view.surroundings w.agents.entries with
    | (s, some fault) => (s.world, .error fault)
    | (s, none) => (s.commit, .ok s.activity)

/-- The world after one tick, unless the tick fails. -/
def tick (w : World α) : Except (Fault α) (World α × Activity) :=
  match w.stepAgents with
  | (_, .error fault) => .error fault
  | (w, .ok activity) => .ok (w, activity)

end World

end Flock
