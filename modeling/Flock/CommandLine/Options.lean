import Flock.Decimal.Reader

/-!
# Options of a run

The numbers of a run can be given as options and, apart from the number of
random agents, in the environment. An option wins over the environment, which is
then not looked at; without either there is a default.
-/

namespace Flock.CommandLine

/-- The texts given for the numbers of a run, by option or by environment. -/
structure OptionTexts where
  dt : Option String
  time : Option String
  seed : Option String
  randomAgents : Option String
deriving DecidableEq, Repr

/-- The options of a run. -/
structure RunOptions where
  dt : Float
  time : Float
  /-- A seed that takes the place of the scenario's. -/
  seed : Option UInt64
  /-- How many agents to place at random besides those of the scenario. -/
  randomAgents : Nat
  json : Bool
  ticks : Bool
deriving Repr

def greatestWord : Nat := UInt64.size - 1

/-- Reads the text given, if there is one. The result is absent if it cannot be
read. -/
def readText {β : Type} (read? : List Char → Option β) (text : Option String) (default : β) :
    Option β :=
  match text with
  | none => some default
  | some text => read? text.toList

/-- Reads the options of a run; there are none if any text in force cannot be
read. -/
def readOptions (given environment : OptionTexts) (json ticks : Bool) : Option RunOptions := do
  let dt ← readText Decimal.parse? (given.dt.or environment.dt) 1
  let time ← readText Decimal.parse? (given.time.or environment.time) 10
  let seed ← readText (fun text => (Decimal.natural? greatestWord text).map some)
    (given.seed.or environment.seed) none
  let randomAgents ← readText (Decimal.natural? greatestWord) given.randomAgents 0
  return { dt, time, seed := seed.map UInt64.ofNat, randomAgents, json, ticks }

end Flock.CommandLine
