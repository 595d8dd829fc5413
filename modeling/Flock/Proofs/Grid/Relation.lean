import Flock.Proofs.Double.Quotient
import Flock.Proofs.Double.Square
import Flock.Proofs.Grid.Measured
import Flock.Proofs.Grid.Overflow

/-!
# Neighbours and radii

A search of a grid with doubles for coordinates may miss a point within the radius, but it misses
it in both directions, and a greater radius does not lose what a smaller one has found: windows
are as wide for one point as for the other, and at least as wide for a greater radius, and where
the smaller radius has no window, the greater one has none either (`Covers.symm`, `Covers.mono`).
So the points that find each other do so both ways and at every greater radius
(`neighbors_symm_and_mono`), in whatever order the buckets are stored, as long as the searches do
not overflow.
-/

namespace Flock

namespace Grid

variable {g : Grid Float} {center p : Point Float} {cell : Cell} {r s : Float} {span wider : Int}

/-- Where a search has a window, one with a smaller radius has a window that is not wider. -/
theorem reach?_of_le (hpos : Scalar.isFinitePos g.cellSize) (h0 : 0 ≤ r) (hle : r ≤ s)
    (hwider : g.reach? s = some wider) :
    ∃ span, g.reach? r = some span ∧ 0 ≤ span ∧ span ≤ wider := by
  obtain ⟨hfinite, hcell⟩ := Scalar.isFinitePos_iff.mp hpos
  obtain ⟨hceil, hfew⟩ := reach?_eq_some_iff.mp hwider
  obtain ⟨span, hspan, hnonneg, hless⟩ := Double.ceil?_div_le h0 hle hfinite hcell hceil
  have hsquare : (2 * span + 1) * (2 * span + 1) ≤ (2 * wider + 1) * (2 * wider + 1) :=
    Int.mul_le_mul (by omega) (by omega) (by omega) (by omega)
  exact ⟨span, reach?_eq_some_iff.mpr ⟨hspan, hsquare.trans hfew⟩, hnonneg, hless⟩

theorem nonneg_of_reach? (hpos : Scalar.isFinitePos g.cellSize) (h0 : 0 ≤ r)
    (hreach : g.reach? r = some span) : 0 ≤ span := by
  obtain ⟨hfinite, hcell⟩ := Scalar.isFinitePos_iff.mp hpos
  exact Double.ceil?_div_nonneg h0 hfinite hcell (reach?_eq_some_iff.mp hreach).1

/-- A search around one point looks into the cell of another if the search around the other one
looks into the cell of the first. -/
theorem Covers.symm (hpos : Scalar.isFinitePos g.cellSize) (h0 : 0 ≤ r)
    (hcenter : ∀ span, g.reach? r = some span → Fits (cellOf g.cellSize center) span)
    (hp : ∀ span, g.reach? r = some span → Fits (cellOf g.cellSize p) span)
    (h : g.Covers center r (cellOf g.cellSize p)) : g.Covers p r (cellOf g.cellSize center) := by
  intro span hreach
  have hspan := nonneg_of_reach? hpos h0 hreach
  have hapart := (covers_iff_of_fits hreach hspan (hcenter span hreach)).mp h
  exact (covers_iff_of_fits hreach hspan (hp span hreach)).mpr hapart.symm span hreach

theorem Covers.mono (hpos : Scalar.isFinitePos g.cellSize) (h0 : 0 ≤ r) (hle : r ≤ s)
    (hfits : ∀ span, g.reach? s = some span → Fits (cellOf g.cellSize center) span)
    (h : g.Covers center r cell) : g.Covers center s cell := by
  intro wider hwider
  obtain ⟨span, hspan, hnonneg, hless⟩ := reach?_of_le hpos h0 hle hwider
  have hwide := hfits wider hwider
  obtain ⟨hcolumn, hrow⟩ := (mem_window_iff (hwide.mono hless) hnonneg).mp (h span hspan)
  exact (mem_window_iff hwide (hnonneg.trans hless)).mpr
    ⟨hcolumn.trans hless, hrow.trans hless⟩

theorem within_mono {d r s : Float} (h0 : 0 ≤ r) (hle : r ≤ s) (h : Scalar.within d r) :
    Scalar.within d s :=
  decide_eq_true (Double.le_trans_of_nonneg_right h0 (of_decide_eq_true h) hle)

/-- In a grid whose points are filed under its own cell size, one point finds another within a
radius if and only if the other finds it within that radius, at the same distance, and then it
finds it within every greater radius, too, however the buckets are listed for each search. This
holds of searches that do not overflow. -/
theorem neighbors_symm_and_mono {g built : Grid Float} {points : List (Point Float)}
    (h : g.rebuild points = .ok built) {occupied others : List (List Nat)}
    (hoccupied : occupied.Perm built.buckets.values) (hothers : others.Perm built.buckets.values)
    {r s : Float} (h0 : 0 ≤ r) (hle : r ≤ s) (i j : Nat) (d : Float) :
    (built.overflows i r = false → built.overflows j r = false →
      ((j, d) ∈ built.neighborsVia occupied i r ↔ (i, d) ∈ built.neighborsVia others j r)) ∧
    (built.overflows i s = false →
      (j, d) ∈ built.neighborsVia occupied i r → (j, d) ∈ built.neighborsVia others i s) := by
  obtain ⟨hfiled, hcell, hpos⟩ := filed_of_rebuild h
  rw [← hcell] at hfiled hpos
  have fits {i : Nat} {r : Float} (h0 : 0 ≤ r) (hfits : built.overflows i r = false)
      {center : Point Float} (hcenter : points[i]? = some center) (span : Int)
      (hreach : built.reach? r = some span) : Fits (cellOf built.cellSize center) span :=
    fits_of_overflows_eq_false (by rw [hfiled.getElem?_points, hcenter]) h0 hfits hreach
  -- what one point finds of another, the other one finds of it
  have hturn {occupied others : List (List Nat)} (hoccupied : occupied.Perm built.buckets.values)
      (hothers : others.Perm built.buckets.values) {i j : Nat}
      (hi : built.overflows i r = false) (hj : built.overflows j r = false)
      (hfound : (j, d) ∈ built.neighborsVia occupied i r) :
      (i, d) ∈ built.neighborsVia others j r := by
    obtain ⟨hradius, hne, center, p, hcenter, hp, hd, hwithin, hcovers⟩ :=
      (hfiled.mem_neighborsVia_iff hoccupied).mp hfound
    rw [Point.distSq_comm] at hd
    exact (hfiled.mem_neighborsVia_iff hothers).mpr ⟨hradius, hne.symm, p, center, hp, hcenter, hd,
      hwithin, hcovers.symm hpos h0 (fits h0 hi hcenter) (fits h0 hj hp)⟩
  refine ⟨fun hi hj => ⟨hturn hoccupied hothers hi hj, hturn hothers hoccupied hj hi⟩,
    fun hi hfound => ?_⟩
  have h0s := Double.nonneg_of_le h0 hle
  obtain ⟨-, hne, center, p, hcenter, hp, hd, hwithin, hcovers⟩ :=
    (hfiled.mem_neighborsVia_iff hoccupied).mp hfound
  exact (hfiled.mem_neighborsVia_iff hothers).mpr ⟨h0s, hne, center, p, hcenter, hp, hd,
    within_mono h0 hle hwithin, hcovers.mono hpos h0 hle (fits h0s hi hcenter)⟩

/-- Two neighbours in a row of ten points. The search of radius 1 has a window, the one of radius
9 looks into every bucket, and the two points find each other. -/
theorem neighbors_symm_and_mono_row :
    ∃ built, (empty (1 : Float)).rebuild row = .ok built ∧ built.reach? 1 = some 1 ∧
      built.reach? 9 = none ∧ (3, 1) ∈ built.neighbors 4 1 ∧ (4, 1) ∈ built.neighbors 3 1 ∧
      (3, 1) ∈ built.neighbors 4 9 := by
  obtain ⟨built, hrebuild⟩ : ∃ built, (empty (1 : Float)).rebuild row = .ok built :=
    ⟨_, if_pos (by decide +kernel)⟩
  obtain ⟨hfiled, hcell, -⟩ := filed_of_rebuild hrebuild
  have hsize : (row.map (cellOf (1 : Float))).dedup.length = 10 := by decide +kernel
  have hnear := reach?_of_rebuild hrebuild
    (by decide +kernel : Scalar.ceil? ((1 : Float) / 1) = some 1)
  have hfar := reach?_of_rebuild hrebuild
    (by decide +kernel : Scalar.ceil? ((9 : Float) / 1) = some 9)
  rw [hsize] at hnear hfar
  have hself : row[4]? = some ⟨4.5, 0⟩ := by decide +kernel
  have hother : row[3]? = some ⟨3.5, 0⟩ := by decide +kernel
  have hcovers : built.Covers ⟨4.5, 0⟩ 1 (cellOf 1 ⟨3.5, 0⟩) := by
    intro span hspan
    obtain rfl := Option.some.inj (hnear.symm.trans hspan)
    rw [hcell]
    decide +kernel
  have hfound : (3, 1) ∈ built.neighbors 4 1 :=
    (hfiled.mem_neighborsVia_iff (List.Perm.refl _)).mpr ⟨by decide +kernel, by decide, _, _, hself,
      hother, by decide +kernel, by decide +kernel, hcovers⟩
  rw [← hcell] at hfiled
  have hfits (i : Nat) (radius : Float) : built.overflows i radius = false := by
    refine hfiled.overflows_eq_false ?_ i radius
    rw [hcell]
    decide +kernel
  have hboth := neighbors_symm_and_mono hrebuild (List.Perm.refl _) (List.Perm.refl _)
    (by decide +kernel : (0 : Float) ≤ 1) (by decide +kernel : (1 : Float) ≤ 9) 4 3 1
  exact ⟨built, hrebuild, hnear, hfar, hfound, (hboth.1 (hfits 4 1) (hfits 3 1)).mp hfound,
    hboth.2 (hfits 4 9) hfound⟩

end Grid

end Flock
