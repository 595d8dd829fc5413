import Flock.Plane
import Std.Data.HashMap

/-!
# A grid of square cells

Points are sorted into the cells of a uniform grid, so that a search around one
of them has to look at the nearby cells only. Where the window of nearby cells
would hold more cells than are occupied at all, every occupied cell is searched
instead. In both cases a point is reported by its own distance, and the report
is in the order of the points, so it does not depend on how cells are stored.

The numbers of cells have 64 bits. A window around a cell near the end of their
range may reach beyond it (`Grid.overflows`); such a window has no cells.
-/

namespace Flock

/-- The column and the row of a cell. -/
abbrev Cell := Int × Int

/-- Points sorted into cells. The cell size may be changed after the points have
been sorted; searches then use the new size on the old cells. -/
structure Grid (α : Type) where
  cellSize : α
  points : Array (Point α)
  /-- The numbers of the points in each occupied cell. -/
  buckets : Std.HashMap Cell (List Nat)

namespace Grid

variable {α : Type} [Scalar α]

def defaultCellSize : α := Scalar.ofInt 50

def empty (cellSize : α) : Grid α := ⟨cellSize, #[], ∅⟩

/-- The cell that a point falls in. -/
def cellOf (cellSize : α) (p : Point α) : Cell :=
  (Scalar.cellNumber (p.x / cellSize), Scalar.cellNumber (p.y / cellSize))

/-- Adds the point with a given number to its cell. -/
def file (cellSize : α) (buckets : Std.HashMap Cell (List Nat)) (entry : Point α × Nat) :
    Std.HashMap Cell (List Nat) :=
  let cell := cellOf cellSize entry.1
  buckets.insert cell (entry.2 :: buckets.getD cell [])

/-- The grid with other points, which are numbered from 0. The cell size has to
be a positive number; otherwise the grid stays as it is. -/
def rebuild (g : Grid α) (points : List (Point α)) : Except (Fault α) (Grid α) :=
  if Scalar.isFinitePos g.cellSize then
    .ok { g with points := points.toArray, buckets := points.zipIdx.foldl (file g.cellSize) ∅ }
  else .error .badCellSize

/-- How many cells the search window reaches on each side of the middle cell;
`none` if every occupied cell is to be searched. -/
def reach? (g : Grid α) (radius : α) : Option Int :=
  match Scalar.ceil? (radius / g.cellSize) with
  | none => none
  | some span =>
    if (g.buckets.size : Int) < (2 * span + 1) * (2 * span + 1) then none else some span

/-- A whole number in the arithmetic of cell numbers: beyond either end of their range
it goes on at the other one. -/
def wrapped (n : Int) : Int := n.bmod UInt64.size

/-- The numbers from `middle - span` to `middle + span`, these two in the arithmetic of
cell numbers. -/
def rangeAround (middle span : Int) : List Int :=
  let first := wrapped (middle - span)
  let last := wrapped (middle + span)
  (List.range (last + 1 - first).toNat).map fun (i : Nat) => first + (i : Int)

/-- The cells of the search window around a cell. -/
def window (middle : Cell) (span : Int) : List Cell :=
  (rangeAround middle.1 span).flatMap fun column =>
    (rangeAround middle.2 span).map fun row => (column, row)

/-- The numbers on either side of a cell, up to a span, are numbers of cells. -/
def Fits (middle : Cell) (span : Int) : Prop :=
  (Double.leastCell ≤ middle.1 - span ∧ middle.1 + span ≤ Double.greatestCell) ∧
    Double.leastCell ≤ middle.2 - span ∧ middle.2 + span ≤ Double.greatestCell

instance (middle : Cell) (span : Int) : Decidable (Fits middle span) :=
  inferInstanceAs (Decidable ((_ ∧ _) ∧ _ ∧ _))

/-- The points in a bucket that are within a radius of a point, without the one
numbered `self`, and the squares of their distances. -/
def report (g : Grid α) (self : Nat) (center : Point α) (radius : α) (bucket : List Nat) :
    List (Nat × α) :=
  bucket.filterMap fun other =>
    if other = self then none
    else
      match g.points[other]? with
      | none => none
      | some p =>
        let distSq := p.distSq center
        if Scalar.within distSq radius then some (other, distSq) else none

def before (a b : Nat × α) : Bool := decide (a.1 ≤ b.1)

/-- The buckets that a search looks at, `occupied` listing all of them. -/
def searched (g : Grid α) (occupied : List (List Nat)) (center : Point α) (radius : α) :
    List (List Nat) :=
  match g.reach? radius with
  | none => occupied
  | some span => (window (cellOf g.cellSize center) span).filterMap fun cell => g.buckets[cell]?

/-- The search for neighbours with the occupied cells listed in a given order. -/
def neighborsVia (g : Grid α) (occupied : List (List Nat)) (self : Nat) (radius : α) :
    List (Nat × α) :=
  match g.points[self]? with
  | none => []
  | some center =>
    if Scalar.zero ≤ radius then
      ((g.searched occupied center radius).flatMap (g.report self center radius)).mergeSort before
    else []

/-- The other points within a radius of the point numbered `self`, boundary
included, with the squares of their distances. An unknown point has no
neighbours, and a radius that is not at least 0 reaches none. -/
def neighbors (g : Grid α) (self : Nat) (radius : α) : List (Nat × α) :=
  g.neighborsVia g.buckets.values self radius

/-- Whether a search has a window that reaches beyond the range of cell numbers. The search
then finds nothing; where arithmetic is checked for overflow, it does not come to an end. -/
def overflows (g : Grid α) (self : Nat) (radius : α) : Bool :=
  match g.points[self]?, g.reach? radius with
  | some center, some span =>
    decide (Scalar.zero ≤ radius) && decide (¬ Fits (cellOf g.cellSize center) span)
  | _, _ => false

end Grid

end Flock
