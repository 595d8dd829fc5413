import Flock.Plane

/-!
# Labelled regions

A region is a circle or an upright rectangle with a label. Several regions may
share a label: a point is in the region called `l` if it is in any of them.
Boundaries belong to regions.
-/

namespace Flock

/-- The form of a region. -/
inductive Shape (α : Type) where
  | circle (center : Point α) (radius : α)
  /-- The rectangle that extends `width` and `height` from its corner. -/
  | rectangle (corner : Point α) (width height : α)
deriving DecidableEq, Repr

namespace Shape

variable {α : Type} [Scalar α]

/-- Whether a point lies inside or on the boundary. -/
def contains (shape : Shape α) (p : Point α) : Bool :=
  match shape with
  | circle center radius => Scalar.within (p.distSq center) radius
  | rectangle corner width height =>
    (decide (corner.x ≤ p.x) && decide (p.x ≤ corner.x + width)) &&
      (decide (corner.y ≤ p.y) && decide (p.y ≤ corner.y + height))

/-- Coordinates have to be finite, lengths moreover not below zero. -/
def check : Shape α → Except (Fault α) Unit
  | circle center radius => do
    Fault.requireFinite "center.x" center.x
    Fault.requireFinite "center.y" center.y
    Fault.requireNonneg "radius" radius
  | rectangle corner width height => do
    Fault.requireFinite "corner.x" corner.x
    Fault.requireFinite "corner.y" corner.y
    Fault.requireNonneg "width" width
    Fault.requireNonneg "height" height

end Shape

structure Region (α : Type) where
  label : String
  shape : Shape α
deriving DecidableEq, Repr

namespace Region

variable {α : Type} [Scalar α]

/-- The region with the given label and shape, if the shape is sound. -/
def create (label : String) (shape : Shape α) : Except (Fault α) (Region α) := do
  shape.check
  return ⟨label, shape⟩

def labelled (regions : List (Region α)) (label : String) : List (Region α) :=
  regions.filter (·.label = label)

/-- Whether a point lies in any of the regions with a given label. -/
def anyContains (regions : List (Region α)) (p : Point α) (label : String) : Bool :=
  regions.any fun region => region.label = label && region.shape.contains p

/-- Being in a region called `label` is being in one of those labelled so. -/
theorem anyContains_eq_labelled (regions : List (Region α)) (p : Point α) (label : String) :
    anyContains regions p label = (labelled regions label).any (·.shape.contains p) := by
  simp [anyContains, labelled, List.any_filter]

end Region

end Flock
