/-!
# Arguments of the commands

A command line is the name of a command, one scenario file, and options, in any
order after the name. The value of an option follows its name, either as the next
argument or behind an equals sign.
-/

namespace Flock.CommandLine

inductive Command where
  /-- Run a scenario and report on it. -/
  | run
  /-- List a scenario without running it. -/
  | inspect
deriving DecidableEq, Repr

/-- A command line taken apart. -/
structure Arguments where
  command : Command
  scenario : String
  /-- The options with a value. -/
  values : List (String × String)
  flags : List String
deriving DecidableEq, Repr

namespace Arguments

/-- The names of the options with a value that a run has. -/
def valueNames : List String := ["agents", "random-agents", "dt", "time", "seed"]

/-- The names of the options without a value that a run has. -/
def flagNames : List String := ["json", "ticks"]

def value? (a : Arguments) (name : String) : Option String :=
  (a.values.find? (·.1 = name)).map (·.2)

def hasFlag (a : Arguments) (name : String) : Bool := a.flags.contains name

/-- The arguments after the command, taken apart so far. -/
structure Collected where
  /-- What is neither an option nor its value. -/
  files : List String
  values : List (String × String)
  flags : List String

/-- Adds an option with its value, which may be given once. -/
def addValue? (name value : String) (collected : Collected) : Option Collected :=
  if valueNames.contains name && !(collected.values.any (·.1 = name)) then
    some { collected with values := (name, value) :: collected.values }
  else none

/-- Adds an option without a value, which may be given once. -/
def addFlag? (name : String) (collected : Collected) : Option Collected :=
  if flagNames.contains name && !collected.flags.contains name then
    some { collected with flags := name :: collected.flags }
  else none

/-- The name of an option, and what stands behind its equals sign if it has one. -/
def splitOption (argument : List Char) : String × Option String :=
  let name := String.ofList (argument.takeWhile (· ≠ '='))
  match argument.dropWhile (· ≠ '=') with
  | [] => (name, none)
  | _ :: value => (name, some (String.ofList value))

/-- Takes arguments apart, one after the other. -/
def collect? (collected : Collected) : List String → Option Collected
  | [] => some collected
  | argument :: rest =>
    match argument.toList with
    | '-' :: '-' :: option =>
      match splitOption option, rest with
      | (name, some value), rest => addValue? name value collected >>= (collect? · rest)
      | (name, none), value :: others =>
        if valueNames.contains name then addValue? name value collected >>= (collect? · others)
        else addFlag? name collected >>= (collect? · (value :: others))
      | (name, none), [] => addFlag? name collected
    | _ => collect? { collected with files := argument :: collected.files } rest

/-- Takes a command line apart. -/
def parse? : List String → Option Arguments
  | command :: rest => do
    let collected ← collect? ⟨[], [], []⟩ rest
    match command, collected.files with
    | "run", [file] => some ⟨.run, file, collected.values, collected.flags⟩
    | "inspect", [file] =>
      if collected.values.isEmpty && collected.flags.isEmpty then some ⟨.inspect, file, [], []⟩
      else none
    | _, _ => none
  | [] => none

end Arguments

end Flock.CommandLine
