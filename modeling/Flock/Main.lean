import Flock.CommandLine.Arguments
import Flock.CommandLine.Command

/-!
# The program

The outer layer: it reads arguments, environment and files, calls a command, and
prints what the command leaves behind.
-/

namespace Flock.CommandLine

/-- A file as the commands see it. -/
def readSource (path : String) : IO SourceFile := do
  try
    return ⟨path, .ok (← IO.FS.readFile path)⟩
  catch
    | .noFileOrDirectory .. => return ⟨path, .error "No such file or directory (os error 2)"⟩
    | error => return ⟨path, .error (toString error)⟩

/-- Prints what a command leaves behind, and ends with its status. -/
def conclude (outcome : Outcome) : IO UInt32 := do
  let stdout ← IO.getStdout
  stdout.putStr outcome.output
  stdout.flush
  let stderr ← IO.getStderr
  stderr.putStr (failureText outcome.chain)
  return outcome.status.toUInt32

/-- A seed for worlds that have none, from the clock. -/
def freshEntropy : IO UInt64 := do
  return (← IO.monoNanosNow).toUInt64

/-- The name that the program is called by, in capitals. -/
def programName : IO String := do
  let path := toString (← IO.appPath)
  let name := (path.toList.reverse.takeWhile (· ≠ '/')).reverse
  return String.ofList (name.map Char.toUpper)

/-- Runs a scenario with the options of a command line. The variables of the
environment that stand in for options are named after the program. -/
def runScenario (arguments : Arguments) : IO UInt32 := do
  let program ← programName
  let inEnvironment (option : String) : IO (Option String) := IO.getEnv (program ++ "_" ++ option)
  let given : OptionTexts :=
    ⟨arguments.value? "dt", arguments.value? "time", arguments.value? "seed",
      arguments.value? "random-agents"⟩
  let environment : OptionTexts :=
    ⟨← inEnvironment "DT", ← inEnvironment "TIME", ← inEnvironment "SEED", none⟩
  match readOptions given environment (arguments.hasFlag "json") (arguments.hasFlag "ticks") with
  | none => conclude .badUsage
  | some options =>
    let scenario ← readSource arguments.scenario
    let agentPath := (arguments.value? "agents").or (← inEnvironment "AGENTS")
    let agents ← agentPath.mapM readSource
    conclude (run options scenario agents (← freshEntropy))

/-- How the program is called. -/
def usage : String :=
  "usage: run SCENARIO [--agents FILE] [--random-agents N] [--dt DT] [--time TIME] " ++
    "[--seed SEED] [--json] [--ticks]\n       inspect SCENARIO"

end Flock.CommandLine

open Flock.CommandLine in
/-- The entry point: `run` and `inspect`, each with the path of a scenario. -/
def main (args : List String) : IO UInt32 := do
  match Arguments.parse? args with
  | none =>
    IO.eprintln usage
    return 2
  | some arguments =>
    match arguments.command with
    | .run => runScenario arguments
    | .inspect => conclude (inspect (← readSource arguments.scenario))
