import Flock.Agent.Body
import Flock.Region

/-!
# Whole numbers as coordinates

An exact type of coordinates, with angles counted in quarter turns. The run of a
program on such coordinates can be evaluated in the logic, which a run on doubles
cannot, so the single runs that are spoken of in this part of the library are runs of
an agent on whole numbers, alone among its regions.
-/

namespace Flock

/-- A whole number as a coordinate, length, time or number of quarter turns. -/
structure Whole where
  value : Int
deriving DecidableEq, Repr

namespace Whole

instance (n : Nat) : OfNat Whole n := ⟨⟨n⟩⟩

instance : Scalar Whole where
  add a b := ⟨a.value + b.value⟩
  sub a b := ⟨a.value - b.value⟩
  mul a b := ⟨a.value * b.value⟩
  div a b := ⟨a.value / b.value⟩
  neg a := ⟨-a.value⟩
  le a b := a.value ≤ b.value
  lt a b := a.value < b.value
  decidableLE a b := inferInstanceAs (Decidable (a.value ≤ b.value))
  decidableLT a b := inferInstanceAs (Decidable (a.value < b.value))
  ofInt n := ⟨n⟩
  isFinite _ := true
  within distSq radius := decide (0 ≤ radius.value ∧ distSq.value ≤ radius.value * radius.value)
  cellNumber a := a.value
  ceil? a := some a.value
  fraction _ := ⟨0⟩

/-- The cosine of a number of quarter turns. -/
def cosine (turns : Whole) : Whole :=
  if turns.value % 4 = 0 then ⟨1⟩ else if turns.value % 4 = 2 then ⟨-1⟩ else ⟨0⟩

instance : Circular Whole where
  cos := cosine
  sin turns := cosine ⟨turns.value - 1⟩
  atan2 y x :=
    if y.value.natAbs ≤ x.value.natAbs then if 0 ≤ x.value then ⟨0⟩ else ⟨2⟩
    else if 0 ≤ y.value then ⟨1⟩ else ⟨-1⟩

end Whole

/-- The surroundings of an agent that is alone among regions. -/
def Surroundings.alone {α : Type} [Scalar α] (regions : List (Region α)) : Surroundings α where
  neighbors _ _ := []
  labelled _ _ := []
  position? _ := none
  inRegion := Region.anyContains regions

end Flock
