import Flock.Fault
import Flock.Scalar.Double

/-!
# Points and headings

Agents live in the plane. A heading is a pair of multipliers, one for each axis:
one step moves an agent by its speed times the heading. Headings that come from
an angle have length 1 up to rounding; one given by its components may have any
length, as long as each component lies in `[-1, 1]`.
-/

namespace Flock

structure Point (α : Type) where
  x : α
  y : α
deriving DecidableEq, Repr

/-- How far a step of speed 1 goes along each axis. -/
structure Heading (α : Type) where
  dx : α
  dy : α
deriving DecidableEq, Repr

namespace Point

variable {α : Type} [Scalar α]

def origin : Point α := ⟨Scalar.zero, Scalar.zero⟩

def distSq (p q : Point α) : α :=
  let dx := p.x - q.x
  let dy := p.y - q.y
  dx * dx + dy * dy

def offset (p : Point α) (dx dy : α) : Point α := ⟨p.x + dx, p.y + dy⟩

/-- The coordinates of the points added up, from the first point on. -/
def sum (points : List (Point α)) : Point α := points.foldl (fun s p => s.offset p.x p.y) origin

/-- The arithmetic mean of the points, summed in the order given. There is none
of no points. -/
def centroid (points : List (Point α)) : Option (Point α) :=
  if points.isEmpty then none
  else
    let count := Scalar.ofInt points.length
    some ⟨(sum points).x / count, (sum points).y / count⟩

/-- Both coordinates have to be finite; the first that is not is reported. -/
def check (p : Point α) : Except (Fault α) Unit := do
  Fault.requireFinite "x" p.x
  Fault.requireFinite "y" p.y

@[simp] theorem centroid_nil : centroid ([] : List (Point α)) = none := rfl

/-- There is a mean of any points but none. -/
theorem centroid_isSome (points : List (Point α)) :
    (centroid points).isSome = !points.isEmpty := by
  cases points <;> simp [centroid]

end Point

namespace Point

/-- The distance between two points, for reports. Comparisons with a distance go
through `Scalar.within`. -/
def dist (p q : Point Float) : Float := (distSq p q).sqrt

end Point

namespace Heading

variable {α : Type} [Scalar α]

def east : Heading α := ⟨Scalar.one, Scalar.zero⟩

/-- A component has to lie in `[-1, 1]`. -/
def checkComponent (name : String) (value : α) : Except (Fault α) Unit :=
  if -Scalar.one ≤ value ∧ value ≤ Scalar.one then .ok () else .error (.badParameter name value)

/-- The heading with the given components, which are kept as they are. -/
def ofComponents (dx dy : α) : Except (Fault α) (Heading α) := do
  checkComponent "dx" dx
  checkComponent "dy" dy
  return ⟨dx, dy⟩

variable [Circular α]

/-- The heading at an angle, measured from the first axis toward the second. An
angle that is not finite counts as 0. -/
def ofAngle (angle : α) : Heading α :=
  let angle := if Scalar.isFinite angle then angle else Scalar.zero
  ⟨Scalar.clampUnit (Circular.cos angle), Scalar.clampUnit (Circular.sin angle)⟩

/-- The heading from one point to another. -/
def towards (here there : Point α) : Heading α :=
  ofAngle (Circular.atan2 (there.y - here.y) (there.x - here.x))

def angle (h : Heading α) : α := Circular.atan2 h.dy h.dx

end Heading

end Flock
