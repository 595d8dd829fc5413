import Flock.Proofs.Grid.Search

/-!
# Windows beyond the range of cell numbers

Whether the search around a point has a window, and how far it reaches, can be told from
the points, the cell size and the radius (`Grid.HasWindow`). A window that reaches beyond the
range of cell numbers is empty, so the search finds nothing at all
(`Filed.neighborsVia_eq_nil`). There is none as long as the points lie within `2 ^ 62` cells
of the axes (`Filed.overflows_eq_false`), whatever their number.
-/

namespace Flock

namespace Grid

variable {α : Type} [Scalar α] {radius : α} {points : List (Point α)} {span : Int}
  {center p : Point α} {self : Nat} {g : Grid α}

/-- A search among points has a window that reaches `span` cells to each side: it has no more
cells than have a point in them. -/
def HasWindow (cellSize : α) (points : List (Point α)) (radius : α) (span : Int) : Prop :=
  Scalar.ceil? (radius / cellSize) = some span ∧
    (2 * span + 1) * (2 * span + 1) ≤ ((points.map (cellOf cellSize)).dedup.length : Int)

/-- The cells of two points are at most `span` columns and `span` rows apart. -/
def AtMostApart (cellSize : α) (span : Int) (p center : Point α) : Prop :=
  |(cellOf cellSize p).1 - (cellOf cellSize center).1| ≤ span ∧
    |(cellOf cellSize p).2 - (cellOf cellSize center).2| ≤ span

theorem atMostApart_iff {cellSize : α} : AtMostApart cellSize span p center ↔
    ((cellOf cellSize p).1 ≤ (cellOf cellSize center).1 + span ∧
      (cellOf cellSize center).1 ≤ (cellOf cellSize p).1 + span) ∧
    (cellOf cellSize p).2 ≤ (cellOf cellSize center).2 + span ∧
      (cellOf cellSize center).2 ≤ (cellOf cellSize p).2 + span := by
  simp only [AtMostApart, abs_le]
  omega

theorem AtMostApart.symm {cellSize : α} (h : AtMostApart cellSize span p center) :
    AtMostApart cellSize span center p := by
  unfold AtMostApart at h ⊢
  rwa [abs_sub_comm, abs_sub_comm (cellOf _ center).2]

/-- A search that has a window covers the cells that are at most its span away. -/
theorem covers_iff_of_fits (hreach : g.reach? radius = some span) (hspan : 0 ≤ span)
    (hfits : Fits (cellOf g.cellSize center) span) :
    g.Covers center radius (cellOf g.cellSize p) ↔ AtMostApart g.cellSize span p center := by
  rw [AtMostApart, ← mem_window_iff hfits hspan]
  constructor
  · intro hcovers
    exact hcovers span hreach
  · intro hcell other hother
    obtain rfl := Option.some.inj (hreach.symm.trans hother)
    exact hcell

theorem overflows_iff (h : g.points[self]? = some center) :
    g.overflows self radius ↔ Scalar.zero ≤ radius ∧
      ∃ span, g.reach? radius = some span ∧ ¬ Fits (cellOf g.cellSize center) span := by
  unfold overflows
  rw [h]
  cases hreach : g.reach? radius with
  | none => simp
  | some span => simp

/-- The window of a search that does not overflow fits. -/
theorem fits_of_overflows_eq_false (h : g.points[self]? = some center)
    (hradius : Scalar.zero ≤ radius) (hfits : g.overflows self radius = false)
    (hreach : g.reach? radius = some span) : Fits (cellOf g.cellSize center) span := by
  by_contra hover
  have htrue := (overflows_iff h).mpr ⟨hradius, span, hreach, hover⟩
  exact Bool.false_ne_true (hfits.symm.trans htrue)

namespace Filed

variable (h : g.Filed g.cellSize points)

include h

theorem reach?_eq_some_iff :
    g.reach? radius = some span ↔ HasWindow g.cellSize points radius span := by
  rw [Grid.reach?_eq_some_iff, h.size_buckets, HasWindow]

theorem two_mul_add_one_le {low n : Int} (hn : 0 ≤ n)
    (hcells : ∀ p ∈ points, InSquare low n (cellOf g.cellSize p))
    (hreach : g.reach? radius = some span) : 2 * span + 1 ≤ n := by
  have hsquare : ∀ cell ∈ (points.map (cellOf g.cellSize)).dedup, InSquare low n cell := by
    intro cell hcell
    obtain ⟨p, hp, rfl⟩ := List.mem_map.mp (List.mem_dedup.mp hcell)
    exact hcells p hp
  exact Grid.two_mul_add_one_le (List.nodup_dedup _) hn hsquare (h.reach?_eq_some_iff.mp hreach).2

/-- A search that overflows finds nothing. -/
theorem neighborsVia_eq_nil (hcells : ∀ p ∈ points, Fits (cellOf g.cellSize p) 0)
    (hover : g.overflows self radius) (occupied : List (List Nat)) :
    g.neighborsVia occupied self radius = [] := by
  unfold neighborsVia
  cases hcenter : g.points[self]? with
  | none => rfl
  | some center =>
      obtain ⟨hradius, span, hreach, hfits⟩ := (overflows_iff hcenter).mp hover
      rw [h.getElem?_points] at hcenter
      have hmiddle := hcells center (List.mem_of_getElem? hcenter)
      have hwide := h.two_mul_add_one_le (by decide) (fun p hp => (hcells p hp).inSquare) hreach
      have hnone := window_eq_nil hmiddle (by omega) hfits
      simp [hradius, searched, hreach, hnone]

/-- No search overflows if all points lie near the axes. -/
theorem overflows_eq_false (hcells : ∀ p ∈ points, IsNear (cellOf g.cellSize p)) (self : Nat)
    (radius : α) : g.overflows self radius = false := by
  cases hcenter : g.points[self]? with
  | none => simp [overflows, hcenter]
  | some center =>
      refine Bool.eq_false_iff.mpr fun hover => ?_
      obtain ⟨-, span, hreach, hfits⟩ := (overflows_iff hcenter).mp hover
      rw [h.getElem?_points] at hcenter
      have hnear := hcells center (List.mem_of_getElem? hcenter)
      exact hfits (hnear.fits (h.two_mul_add_one_le (by decide) hcells hreach))

end Filed

end Grid

end Flock
