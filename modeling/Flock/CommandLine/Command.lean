import Flock.CommandLine.Options
import Flock.CommandLine.Output
import Flock.Scenario.Format

/-!
# The commands

A command is a function from the contents of its files to what it prints and how
it ends. A failure is reported as a chain of messages, from what was being done
to what went wrong.
-/

namespace Flock.CommandLine

/-- A file with its contents, or the reason why it cannot be read. -/
structure SourceFile where
  path : String
  contents : Except String String

/-- What a command leaves behind. -/
structure Outcome where
  /-- The exit status of the process. -/
  status : Nat
  /-- The text on the standard output. -/
  output : String
  /-- The messages of a failure, the outermost first. -/
  chain : List String
deriving DecidableEq, Repr

namespace Outcome

def success (output : String) : Outcome := ⟨0, output, []⟩

def failure (output : String) (chain : List String) : Outcome := ⟨1, output, chain⟩

/-- A command that was given options it cannot read. -/
def badUsage : Outcome := ⟨2, "", []⟩

/-- A command that cannot go on, because a random value was asked for from a range
without a finite width. -/
def breakdown (output : String) : Outcome := ⟨101, output, []⟩

/-- The failure of loading what a command works on, with what was being done. -/
def ofLoadError (doing : String) (error : LoadError Float) : Outcome :=
  match error with
  | .badWorld .unboundedRange => breakdown ""
  | error => failure "" (doing :: error.message :: error.cause?.toList)

end Outcome

def SourceFile.read (file : SourceFile) : Except (LoadError Float) String :=
  file.contents.mapError (.unreadableFile file.path)

def loadScenario (file : SourceFile) : Except Outcome (Scenario Float) :=
  let loaded := do
    match Scenario.ofText? (← file.read) with
    | some scenario => Except.ok scenario
    | none => Except.error LoadError.badScenario
  loaded.mapError (Outcome.ofLoadError ("failed to load scenario " ++ file.path))

def loadAgents (file : SourceFile) : Except Outcome (List (Placement Float)) :=
  let loaded := do (AgentList.parse (← file.read)).mapError LoadError.badAgentList
  loaded.mapError (Outcome.ofLoadError ("failed to load agent list " ++ file.path))

/-- Runs the ticks of a world and reports on it. -/
def simulate (options : RunOptions) (world : World Float) : Outcome :=
  let gather (printed : String) (s : Summary Float) : String :=
    if options.ticks && !options.json then printed ++ tickLine s else printed
  let run := Simulation.runFor gather options.dt options.time Simulation.tickLimit ""
    (Simulation.start world)
  match run.ending with
  | .failed .unboundedRange => .breakdown run.gathered
  | .failed fault => .failure run.gathered ["simulation aborted", fault.message]
  | .unfinished => .failure run.gathered ["simulation aborted", "the clock stands still"]
  | .completed =>
    let report := Report.ofSimulation run.simulation
    .success (run.gathered ++
      if options.json then line report.toJson.pretty else reportText report)

/-- Runs a scenario. The agents of an agent list, if one is given, take the place
of those of the scenario. -/
def run (options : RunOptions) (scenarioFile : SourceFile) (agentFile : Option SourceFile)
    (entropy : UInt64) : Outcome :=
  let prepared : Except Outcome (World Float) := do
    let scenario ← loadScenario scenarioFile
    let agents ← agentFile.elim (.ok scenario.agents) loadAgents
    let settings := { scenario.settings with seed := options.seed.or scenario.settings.seed }
    ({ scenario with agents, settings }.build options.randomAgents entropy).mapError
      (Outcome.ofLoadError "failed to set up the world")
  match prepared with
  | .error outcome => outcome
  | .ok world => simulate options world

/-- Prints the program and the regions of a scenario. -/
def inspect (scenarioFile : SourceFile) : Outcome :=
  let listed : Except Outcome String := do
    let scenario ← loadScenario scenarioFile
    let program ← scenario.tree.mapError (Outcome.ofLoadError "scenario program is invalid")
    return scenarioText scenario program
  match listed with
  | .error outcome => outcome
  | .ok text => .success text

/-- The text that reports a failure on the standard error output. -/
def failureText : List String → String
  | [] => ""
  | [message] => line ("Error: " ++ message)
  | [message, cause] => line ("Error: " ++ message) ++ line "" ++ line "Caused by:" ++
      line ("    " ++ cause)
  | message :: causes => line ("Error: " ++ message) ++ line "" ++ line "Caused by:" ++
      String.join (causes.zipIdx.map fun (cause, number) =>
        line ("    " ++ toString number ++ ": " ++ cause))

end Flock.CommandLine
