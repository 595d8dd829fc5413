import Flock.Scalar
import Flock.Decimal.Layout

/-!
# What can go wrong with agents and worlds

Faults are causes; their wording is in `Fault.message` alone. A fault of a
program text, found while it is assembled, is of another kind and stands with
the builder.
-/

namespace Flock

/-- The settings of a world that can be refused. -/
inductive Setting where
  | historyCapacity
  | indexCellSize
  | spawnExtent
deriving DecidableEq, Repr

/-- Why an operation on an agent, a world or a simulation was refused. -/
inductive Fault (α : Type) where
  /-- An argument is outside its range. -/
  | badParameter (name : String) (value : α)
  | noHeading
  | badSetting (setting : Setting)
  /-- The grid was given a cell size that is not a positive number. -/
  | badCellSize
  | unknownAgent
  /-- A random value was to be taken from a range whose width is not finite. No
  agent can go on from here, so the simulation as a whole ends. -/
  | unboundedRange
deriving DecidableEq, Repr

namespace Fault

variable {α : Type} [Scalar α]

/-- Accepts finite values. -/
def requireFinite (name : String) (value : α) : Except (Fault α) Unit :=
  if Scalar.isFinite value then .ok () else .error (.badParameter name value)

/-- Accepts finite values that are not below zero. -/
def requireNonneg (name : String) (value : α) : Except (Fault α) Unit :=
  if Scalar.isFiniteNonneg value then .ok () else .error (.badParameter name value)

/-- Accepts finite values above zero. -/
def requirePos (name : String) (value : α) : Except (Fault α) Unit :=
  if Scalar.isFinitePos value then .ok () else .error (.badParameter name value)

end Fault

namespace Setting

/-- What is demanded of a setting. -/
def demand : Setting → String
  | historyCapacity => "history_capacity must be non-zero"
  | indexCellSize => "index_cell_size must be positive"
  | spawnExtent => "spawn_extent must be non-negative"

end Setting

/-- The sentence for a parameter outside its range, shared by all that check
parameters. -/
def badParameterText (name : String) (value : Float) : String :=
  "invalid parameter `" ++ name ++ "`: " ++ Layout.plain.render value

namespace Fault

def message : Fault Float → String
  | badParameter name value => badParameterText name value
  | noHeading => "precondition violated: direction must be set before moving"
  | badSetting setting => "invalid configuration: " ++ setting.demand
  | badCellSize => "invalid configuration: cell_size must be positive"
  | unknownAgent => "unknown agent"
  | unboundedRange => "random range is not finite"

end Fault

end Flock
