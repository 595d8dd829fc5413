import Flock.Fault
import Flock.Random.WordStream

/-!
# Settings of a world
-/

namespace Flock

/-- What is fixed about a world when it is created. -/
structure Settings (α : Type) where
  /-- The seed of the random words; without one every world draws other words. -/
  seed : Option UInt64
  /-- How many summaries of past ticks are kept. -/
  historyCapacity : UInt64
  /-- The cell size of the grid by which neighbours are found. -/
  cellSize : α
  /-- Random places lie at most this far from the axes. -/
  spawnExtent : α
deriving DecidableEq, Repr

namespace Settings

variable {α : Type} [Scalar α]

def default : Settings α := ⟨none, 256, Scalar.ofInt 10, Scalar.ofInt 100⟩

/-- Checks the settings in the order in which they are declared. -/
def check (s : Settings α) : Except (Fault α) Unit :=
  if s.historyCapacity = 0 then .error (.badSetting .historyCapacity)
  else if !Scalar.isFinitePos s.cellSize then .error (.badSetting .indexCellSize)
  else if !Scalar.isFiniteNonneg s.spawnExtent then .error (.badSetting .spawnExtent)
  else .ok ()

/-- The random words of a world with these settings. The word `entropy` stands in
for a seed that was not given. -/
def words (s : Settings α) (entropy : UInt64) : WordStream := .ofSeed (s.seed.getD entropy)

end Settings

end Flock
