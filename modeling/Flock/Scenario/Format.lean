import Flock.Json.Reader
import Flock.Json.Record
import Flock.Scenario.Basic

/-!
# Scenarios as JSON

Every part of a scenario has a form in JSON, given by a function `toJson`, and a
function `ofJson?` that reads it back. Doubles that are not finite have no form
of their own and are written as `null`, which no double is read from.

Events are told apart by their field `op`. They are taken in as a whole before
their kind is known, so they have to be readable in all parts, also where nobody
asks for them, and their nesting is limited.
-/

namespace Flock

open Json (orDefault)

namespace Point

def toJson (p : Point Float) : Json := .object [("x", .ofFloat p.x), ("y", .ofFloat p.y)]

def ofJson? (value : Json) : Option (Point Float) :=
  match value.fields? ["x", "y"] with
  | some [some x, some y] => return ⟨← x.float?, ← y.float?⟩
  | _ => none

end Point

namespace Shape

/-- The form of a shape: an object with its kind as the only key. -/
def toJson : Shape Float → Json
  | circle center radius =>
    .object [("circle", .object [("center", center.toJson), ("radius", .ofFloat radius)])]
  | rectangle corner width height =>
    .object [("rectangle",
      .object [("corner", corner.toJson), ("width", .ofFloat width), ("height", .ofFloat height)])]

def ofJson? : Json → Option (Shape Float)
  | .object [("circle", body)] =>
    match body.fields? ["center", "radius"] with
    | some [some center, some radius] => return .circle (← Point.ofJson? center) (← radius.float?)
    | _ => none
  | .object [("rectangle", body)] =>
    match body.fields? ["corner", "width", "height"] with
    | some [some corner, some width, some height] =>
      return .rectangle (← Point.ofJson? corner) (← width.float?) (← height.float?)
    | _ => none
  | _ => none

end Shape

namespace Region

def toJson (r : Region Float) : Json :=
  .object [("label", .string r.label), ("shape", r.shape.toJson)]

/-- Reads a region, without checking its shape. -/
def ofJson? (value : Json) : Option (Region Float) :=
  match value.fields? ["label", "shape"] with
  | some [some label, some shape] => return ⟨← label.asString?, ← Shape.ofJson? shape⟩
  | _ => none

end Region

namespace Placement

def toJson (p : Placement Float) : Json :=
  .object [("x", .ofFloat p.x), ("y", .ofFloat p.y), ("label", .string p.label)]

/-- Reads a placement. An agent without a label broadcasts none. -/
def ofJson? (value : Json) : Option (Placement Float) :=
  match value.fields? ["x", "y", "label"] with
  | some [some x, some y, label] =>
    return ⟨← x.float?, ← y.float?, ← orDefault "" Json.asString? label⟩
  | _ => none

end Placement

namespace Settings

def toJson (s : Settings Float) : Json :=
  .object
    [("rng_seed", s.seed.elim .null fun seed => .integer seed.toNat),
      ("history_capacity", .integer s.historyCapacity.toNat),
      ("index_cell_size", .ofFloat s.cellSize),
      ("spawn_extent", .ofFloat s.spawnExtent)]

/-- Reads settings, without checking them. Every field has a default. -/
def ofJson? (value : Json) : Option (Settings Float) :=
  match value.fields? ["rng_seed", "history_capacity", "index_cell_size", "spawn_extent"] with
  | some [seed, capacity, cellSize, extent] =>
    let standard : Settings Float := .default
    return {
      seed := ← orDefault standard.seed (Json.nullable? Json.uint64?) seed
      historyCapacity := ← orDefault standard.historyCapacity Json.uint64? capacity
      cellSize := ← orDefault standard.cellSize Json.float? cellSize
      spawnExtent := ← orDefault standard.spawnExtent Json.float? extent }
  | _ => none

end Settings

namespace Event

def toJson : Event Float → Json
  | move target speed => tagged "move" [("target", target.toJson), ("speed", .ofFloat speed)]
  | wander corner1 corner2 speed =>
    tagged "random_move"
      [("corner1", corner1.toJson), ("corner2", corner2.toJson), ("speed", .ofFloat speed)]
  | signal label => tagged "signal" [("label", .string label)]
  | unsignal label => tagged "unsignal" [("label", .string label)]
  | follow label radius speed =>
    tagged "follow"
      [("label", .string label), ("radius", .ofFloat radius), ("speed", .ofFloat speed)]
  | stop => tagged "stop" []
  | wait ticks => tagged "wait" [("ticks", .integer ticks.toInt)]
  | startTimes count => tagged "repeat_start" [("times", .integer count.toInt)]
  | startUntil region => tagged "until_start" [("label", .string region)]
  | startForever => tagged "forever_start" []
  | finish => tagged "block_end" []
where
  /-- An object that names the kind of event and then gives its arguments. -/
  tagged (op : String) (arguments : List (String × Json)) : Json :=
    .object (("op", .string op) :: arguments)

/-- Reads an event that has no arguments. Anything an object holds is passed over,
and an array has to be empty. -/
def bare? (event : Event Float) : Json → Option (Event Float)
  | .object _ => some event
  | .array [] => some event
  | _ => none

/-- Reads an event of a known kind from its arguments. -/
def ofArguments? (op : String) (arguments : Json) : Option (Event Float) :=
  match op with
  | "move" =>
    match arguments.fields? ["target", "speed"] with
    | some [some target, some speed] => return move (← Point.ofJson? target) (← speed.float?)
    | _ => none
  | "random_move" =>
    match arguments.fields? ["corner1", "corner2", "speed"] with
    | some [some corner1, some corner2, some speed] =>
      return wander (← Point.ofJson? corner1) (← Point.ofJson? corner2) (← speed.float?)
    | _ => none
  | "signal" =>
    match arguments.fields? ["label"] with
    | some [some label] => return signal (← label.asString?)
    | _ => none
  | "unsignal" =>
    match arguments.fields? ["label"] with
    | some [some label] => return unsignal (← label.asString?)
    | _ => none
  | "follow" =>
    match arguments.fields? ["label", "radius", "speed"] with
    | some [some label, some radius, some speed] =>
      return follow (← label.asString?) (← radius.float?) (← speed.float?)
    | _ => none
  | "stop" => bare? stop arguments
  | "wait" =>
    match arguments.fields? ["ticks"] with
    | some [some ticks] => return wait (← ticks.int64?)
    | _ => none
  | "repeat_start" =>
    match arguments.fields? ["times"] with
    | some [some count] => return startTimes (← count.int64?)
    | _ => none
  | "until_start" =>
    match arguments.fields? ["label"] with
    | some [some region] => return startUntil (← region.asString?)
    | _ => none
  | "forever_start" => bare? startForever arguments
  | "block_end" => bare? finish arguments
  | _ => none

/-- The number of arrays and objects inside one another from which on an event is
not taken in. -/
def nestingLimit : Nat := 128

/-- Reads an event that stands inside a number of arrays and objects. -/
def ofJson? (outer : Nat) (value : Json) : Option (Event Float) :=
  if value.isReadable && decide (outer + value.nesting < nestingLimit) then
    match value with
    | .object entries =>
      match entries.filter (·.1 = "op") with
      | [(_, .string op)] => ofArguments? op (.object (entries.filter (·.1 ≠ "op")))
      | _ => none
    | .array (.string op :: arguments) => ofArguments? op (.array arguments)
    | _ => none
  else none

def listOfText? (text : String) : Option (List (Event Float)) :=
  Json.parse? text >>= Json.list? (ofJson? 1)

end Event

namespace Settings

def ofText? (text : String) : Option (Settings Float) := Json.parse? text >>= ofJson?

end Settings

namespace Scenario

def toJson (s : Scenario Float) : Json :=
  .object
    [("config", s.settings.toJson),
      ("agents", .array (s.agents.map Placement.toJson)),
      ("regions", .array (s.regions.map Region.toJson)),
      ("program", .array (s.program.map Event.toJson))]

/-- Reads a scenario. Every field has a default. -/
def ofJson? (value : Json) : Option (Scenario Float) :=
  match value.fields? ["config", "agents", "regions", "program"] with
  | some [settings, agents, regions, program] =>
    return {
      settings := ← orDefault .default Settings.ofJson? settings
      agents := ← orDefault [] (Json.list? Placement.ofJson?) agents
      regions := ← orDefault [] (Json.list? Region.ofJson?) regions
      program := ← orDefault [] (Json.list? (Event.ofJson? 2)) program }
  | _ => none

def ofText? (text : String) : Option (Scenario Float) := Json.parse? text >>= ofJson?

end Scenario

end Flock
