import Flock.Proofs.Grid.Overflow
import Flock.Proofs.Rational

/-!
# Searching exactly

With rational coordinates the window of a search covers the cell of every point within
the radius (`covers_of_within`), as long as its cells have numbers: two such points are at
most a radius apart along each axis, and the window reaches as many cells to each side as it
takes to span a radius. So a search that does not overflow finds exactly the points within
the radius, however many buckets there are (`Filed.mem_neighbors_rat_iff`).
-/

namespace Flock

namespace Grid

variable {g : Grid ℚ} {points : List (Point ℚ)} {center p : Point ℚ} {radius d : ℚ}
  {self other : Nat}

theorem fits_cellOf_rat (cellSize : ℚ) (p : Point ℚ) : Fits (cellOf cellSize p) 0 := by
  have hx := Scalar.cellNumber_mem_rat (p.x / cellSize)
  have hy := Scalar.cellNumber_mem_rat (p.y / cellSize)
  unfold Fits cellOf
  omega

/-- Points that are at most a radius apart along both axes. -/
theorem atMostApart_of_abs_sub_le (hpos : 0 < g.cellSize) (hradius : 0 ≤ radius)
    (hx : |p.x - center.x| ≤ radius) (hy : |p.y - center.y| ≤ radius) :
    AtMostApart g.cellSize ⌈radius / g.cellSize⌉ p center := by
  have hspan : 0 ≤ radius / g.cellSize := div_nonneg hradius hpos.le
  -- the cells of two coordinates that are at most a radius apart, in either direction
  have reaches {a b : ℚ} (h : a - b ≤ radius) : Scalar.cellNumber (a / g.cellSize) ≤
      Scalar.cellNumber (b / g.cellSize) + ⌈radius / g.cellSize⌉ := by
    refine Scalar.cellNumber_le_add ?_ hspan
    rw [← add_div]
    exact div_le_div_of_nonneg_right (by linarith) hpos.le
  obtain ⟨hxlow, hxhigh⟩ := abs_le.mp hx
  obtain ⟨hylow, hyhigh⟩ := abs_le.mp hy
  exact atMostApart_iff.mpr ⟨⟨reaches hxhigh, reaches (by linarith)⟩, reaches hyhigh,
    reaches (by linarith)⟩

/-- A search whose window fits covers the cell of every point within the radius. -/
theorem covers_of_within (hpos : 0 < g.cellSize)
    (hfits : ∀ span, g.reach? radius = some span → Fits (cellOf g.cellSize center) span)
    (h : Scalar.within (p.distSq center) radius) :
    g.Covers center radius (cellOf g.cellSize p) := by
  intro span hreach
  obtain ⟨hceil, -⟩ := reach?_eq_some_iff.mp hreach
  obtain rfl : ⌈radius / g.cellSize⌉ = span := Option.some.inj hceil
  obtain ⟨hradius, hdist⟩ := Scalar.within_rat_iff.mp h
  rw [Point.distSq_rat] at hdist
  have hspan : 0 ≤ ⌈radius / g.cellSize⌉ := Int.ceil_nonneg (div_nonneg hradius hpos.le)
  refine (covers_iff_of_fits hreach hspan (hfits _ hreach)).mpr (atMostApart_of_abs_sub_le hpos
    hradius (abs_le_of_sq_le_sq ?_ hradius) (abs_le_of_sq_le_sq ?_ hradius)) _ hreach
  · linarith [sq_nonneg (p.y - center.y)]
  · linarith [sq_nonneg (p.x - center.x)]

/-- A search of exact coordinates finds the other points within the radius, unless it
overflows. -/
theorem Filed.mem_neighbors_rat_iff (h : g.Filed g.cellSize points) (hpos : 0 < g.cellSize)
    (hradius : 0 ≤ radius) (hfits : g.overflows self radius = false) :
    (other, d) ∈ g.neighbors self radius ↔ other ≠ self ∧ ∃ center p,
      points[self]? = some center ∧ points[other]? = some p ∧ p.distSq center = d ∧
        d ≤ radius ^ 2 := by
  have hzero : (Scalar.zero : ℚ) ≤ radius := by rwa [Scalar.zero_rat]
  rw [neighbors, h.mem_neighborsVia_iff (List.Perm.refl _), and_iff_right hzero]
  refine and_congr_right fun _ => exists_congr fun center => exists_congr fun p => ?_
  constructor
  · rintro ⟨hcenter, hp, hd, hwithin, -⟩
    exact ⟨hcenter, hp, hd, (Scalar.within_rat_iff.mp hwithin).2⟩
  · rintro ⟨hcenter, hp, rfl, hdist⟩
    have hwithin := Scalar.within_rat_iff.mpr ⟨hradius, hdist⟩
    have hcenter' : g.points[self]? = some center := by rw [h.getElem?_points, hcenter]
    exact ⟨hcenter, hp, rfl, hwithin, covers_of_within hpos
      (fun span => fits_of_overflows_eq_false hcenter' hzero hfits) hwithin⟩

end Grid

end Flock
