import Flock.Fault
import Flock.Random.WordStream

/-!
# Uniform samples

A sample between two values takes at most one word from the stream: none if the
two values are the same, and one otherwise.
-/

namespace Flock

namespace WordStream

variable {α : Type} [Scalar α]

/-- A value between `low` and `high`, from one word of the stream. The width of
the range has to be finite. -/
def sampleRange (low high : α) (words : WordStream) : Except (Fault α) (α × WordStream) :=
  let width := high - low
  if Scalar.isFinite width then .ok (Scalar.fraction words.head * width + low, words.tail)
  else .error .unboundedRange

/-- A value between `a` and `b`, which may stand in either order. If they are
equal there is nothing to choose, and no word is taken. -/
def sampleBetween (a b : α) (words : WordStream) : Except (Fault α) (α × WordStream) :=
  let low := if a ≤ b then a else b
  let high := if a ≤ b then b else a
  if low ≤ high ∧ high ≤ low then .ok (low, words) else words.sampleRange low high

end WordStream

end Flock
