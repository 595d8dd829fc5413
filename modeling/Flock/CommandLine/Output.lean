import Flock.Program.Listing
import Flock.Report
import Flock.Scenario.Basic
import Flock.Text.Pad
import Flock.Text.Style

/-!
# What the commands print

Lines for ticks, the table of agents at the end of a run, and the listing of a
scenario. Columns are filled up inside the control sequences of a style, so the
sequences do not count toward their width.
-/

namespace Flock.CommandLine

open Flock.Text

/-- A text followed by a line feed. -/
def line (text : String) : String := text ++ "\n"

/-- A time or coordinate as it stands in a table. -/
def rounded (x : Float) : String := Decimal.fixed 3 x

/-- The line for one tick. -/
def tickLine (s : Summary Float) : String :=
  line (Style.dimmed.apply "tick" ++ " " ++ padLeft 5 (toString s.tick) ++
    "  t=" ++ padRight 8 (rounded s.elapsed) ++
    " executed " ++ padRight 5 (toString s.activity.executed) ++
    " completed " ++ padRight 5 (toString s.activity.closed) ++
    " signalling " ++ toString s.signalling)

/-- The columns of the table of agents. -/
def tableHead : String :=
  " ".intercalate
    [heading (padRight 6 "AGENT"), heading (padLeft 12 "X"), heading (padLeft 12 "Y"),
      heading (padLeft 8 "SPEED"), heading (padRight 10 "STATE"), heading "LABEL"]

/-- The row of one agent, numbered by its place in the report. -/
def tableRow (agent : AgentReport Float) (number : Nat) : String :=
  " ".intercalate
    [padRight 6 (toString number), padLeft 12 (rounded agent.position.x),
      padLeft 12 (rounded agent.position.y), padLeft 8 (rounded agent.speed),
      padRight 10 (if agent.finished then "done" else "running"),
      Style.yellow.apply agent.label]

/-- The report at the end of a run. -/
def reportText (r : Report Float) : String :=
  line (Style.bold.apply (Style.green.apply "finished") ++ " " ++ toString r.ticks ++
      " ticks, t=" ++ rounded r.elapsed ++ ", " ++ toString r.agents.length ++ " agents (" ++
      toString r.signalling ++ " signalling)") ++
    line tableHead ++
    line (Style.dimmed.apply (String.ofList (List.replicate 64 '-'))) ++
    String.join (r.agents.zipIdx.map fun (agent, number) => line (tableRow agent number))

/-- A record written out with the names of its fields. -/
def written (name : String) (fields : List (String × String)) : String :=
  name ++ " " ++ openBrace ++ " " ++
    ", ".intercalate (fields.map fun (field, value) => field ++ ": " ++ value) ++ " " ++ closeBrace

def pointText (p : Point Float) : String :=
  written "Point" [("x", Layout.structural.render p.x), ("y", Layout.structural.render p.y)]

def shapeText : Shape Float → String
  | .circle center radius =>
    written "Circle" [("center", pointText center), ("radius", Layout.structural.render radius)]
  | .rectangle corner width height =>
    written "Rectangle"
      [("corner", pointText corner), ("width", Layout.structural.render width),
        ("height", Layout.structural.render height)]

/-- The listing of a scenario: its program, the number of its agents, and its
regions. -/
def scenarioText (s : Scenario Float) (program : Program Float) : String :=
  line (heading "program" ++ " " ++ toString program.size ++ " nodes, " ++
      toString program.actionCount ++ " primitives, depth " ++ toString program.depth) ++
    program.listing Layout.plain.render ++
    line (heading "agents" ++ " " ++ toString s.agents.length) ++
    String.join (s.regions.map fun r =>
      line (heading "region" ++ " " ++ Style.green.apply r.label ++ " " ++ shapeText r.shape))

end Flock.CommandLine
