import Flock.Proofs.Double.Nearest
import Flock.Proofs.Grid.Overflow

/-!
# Searching and measuring

A search of a grid is to find what measuring every distance finds (`Grid.measured`).
It never finds anything else, and where it looks into every bucket it finds all of it.
Where it looks into a window of cells, it finds nothing if the window reaches beyond the
range of cell numbers. Otherwise it finds all of it if and only if no point within the radius
is in a cell further away than the radius spans (`neighbors_eq_measured_iff`).

For exact numbers no point is. For doubles some may be, because the numbers of cells and the
span of the window are rounded quotients (`neighbors_ne_measured`), but none of those whose
coordinates differ from the ones of the middle by less than the radius, with a margin for the
three quotients (`Double.IsClear`).
-/

namespace Flock

namespace Grid

variable {α : Type} [Scalar α] {cellSize radius d : α} {points : List (Point α)}
  {self other : Nat} {g built : Grid α} {center : Point α}

/-- The other points within a radius of the point numbered `self`, boundary included,
with the squares of their distances, found by measuring all of them. -/
def measured (points : List (Point α)) (self : Nat) (radius : α) : List (Nat × α) :=
  match points[self]? with
  | none => []
  | some center =>
    points.zipIdx.filterMap fun e =>
      if e.2 ≠ self ∧ Scalar.within (e.1.distSq center) radius then
        some (e.2, e.1.distSq center)
      else none

theorem mem_measured_iff :
    (other, d) ∈ measured points self radius ↔
      other ≠ self ∧ ∃ center p, points[self]? = some center ∧ points[other]? = some p ∧
        p.distSq center = d ∧ Scalar.within d radius := by
  unfold measured
  cases hcenter : points[self]? with
  | none => simp
  | some center =>
      simp only [List.mem_filterMap, Prod.exists, List.mem_zipIdx_iff_getElem?]
      constructor
      · rintro ⟨p, i, hp, hfound⟩
        split at hfound
        · next hmeets =>
          obtain ⟨rfl, rfl⟩ := Prod.mk.inj (Option.some.inj hfound)
          exact ⟨hmeets.1, center, p, rfl, hp, rfl, hmeets.2⟩
        · exact absurd hfound (by simp)
      · rintro ⟨hne, same, p, hsame, hp, rfl, hwithin⟩
        obtain rfl := Option.some.inj hsame
        exact ⟨p, other, hp, by simp [hne, hwithin]⟩

theorem pairwise_measured (points : List (Point α)) (self : Nat) (radius : α) :
    (measured points self radius).Pairwise fun a b => a.1 < b.1 := by
  unfold measured
  split
  · exact .nil
  · refine List.pairwise_filterMap.mpr ?_
    have hindices : points.zipIdx.Pairwise fun a b => a.2 < b.2 := by
      rw [← List.pairwise_map (f := Prod.snd) (R := (· < ·)), List.zipIdx_map_snd]
      exact List.pairwise_lt_range'
    refine hindices.imp ?_
    rintro a b hlt x hx y hy
    split at hx
    · split at hy
      · obtain rfl := Option.some.inj hx
        obtain rfl := Option.some.inj hy
        exact hlt
      · exact absurd hy (by simp)
    · exact absurd hx (by simp)

/-- Lists in the order of numbers are the same if they have the same members. -/
theorem eq_of_pairwise_of_mem_iff {β : Type} {number : β → Nat} {found others : List β}
    (hfound : found.Pairwise fun a b => number a < number b)
    (hothers : others.Pairwise fun a b => number a < number b) (h : ∀ e, e ∈ found ↔ e ∈ others) :
    found = others := by
  have nodup {l : List β} (hl : l.Pairwise fun a b => number a < number b) : l.Nodup :=
    hl.imp fun hlt heq => absurd (congrArg number heq) (Nat.ne_of_lt hlt)
  have hperm := (List.perm_ext_iff_of_nodup (nodup hfound) (nodup hothers)).mpr h
  exact hperm.eq_of_pairwise (fun a b _ _ hab hba => absurd hab (Nat.lt_asymm hba)) hfound hothers

/-- The window covers the cell of every other point within the radius, so far as the
search has a window. -/
def CoversMeasured (g : Grid α) (cellSize : α) (points : List (Point α)) (self : Nat)
    (radius : α) : Prop :=
  ∀ center p other, points[self]? = some center → points[other]? = some p → other ≠ self →
    Scalar.within (p.distSq center) radius → g.Covers center radius (cellOf cellSize p)

namespace Filed

variable (h : g.Filed cellSize points)

include h

theorem mem_measured (hfound : (other, d) ∈ g.neighbors self radius) :
    (other, d) ∈ measured points self radius := by
  obtain ⟨-, hne, center, p, hcenter, hp, hd, hwithin, -⟩ :=
    (h.mem_neighborsVia_iff (List.Perm.refl _)).mp hfound
  exact mem_measured_iff.mpr ⟨hne, center, p, hcenter, hp, hd, hwithin⟩

theorem neighbors_eq_of_covers (hradius : Scalar.zero ≤ radius)
    (hcovers : g.CoversMeasured cellSize points self radius) :
    g.neighbors self radius = measured points self radius := by
  refine eq_of_pairwise_of_mem_iff (h.pairwise_neighborsVia (List.Perm.refl _) self radius)
    (pairwise_measured points self radius) fun ⟨other, d⟩ => ⟨h.mem_measured, fun hfound => ?_⟩
  obtain ⟨hne, center, p, hcenter, hp, rfl, hwithin⟩ := mem_measured_iff.mp hfound
  exact (h.mem_neighborsVia_iff (List.Perm.refl _)).mpr ⟨hradius, hne, center, p, hcenter, hp, rfl,
    hwithin, hcovers center p other hcenter hp hne hwithin⟩

theorem covers_of_neighbors_eq
    (heq : g.neighbors self radius = measured points self radius) :
    g.CoversMeasured cellSize points self radius := by
  intro center p other hcenter hp hne hwithin
  have hfound : (other, p.distSq center) ∈ measured points self radius :=
    mem_measured_iff.mpr ⟨hne, center, p, hcenter, hp, rfl, hwithin⟩
  rw [← heq] at hfound
  obtain ⟨-, -, same, q, hsame, hq, -, -, hcovers⟩ :=
    (h.mem_neighborsVia_iff (List.Perm.refl _)).mp hfound
  obtain rfl := Option.some.inj (hcenter.symm.trans hsame)
  obtain rfl := Option.some.inj (hp.symm.trans hq)
  exact hcovers

end Filed

/-- The window of a search in a grid that has just been rebuilt: there is one if there
are at least as many cells with a point in them as the window has cells. -/
theorem reach?_of_rebuild {span : Int}
    (h : (empty cellSize).rebuild points = .ok built)
    (hspan : Scalar.ceil? (radius / cellSize) = some span) :
    built.reach? radius =
      if ((points.map (cellOf cellSize)).dedup.length : Int) < (2 * span + 1) * (2 * span + 1) then
        none
      else some span := by
  obtain ⟨hfiled, hcell, -⟩ := filed_of_rebuild h
  have hsize : built.buckets.size = (points.map (cellOf cellSize)).dedup.length :=
    hfiled.size_buckets
  have hbuilt : built.cellSize = cellSize := hcell
  rw [reach?, hbuilt, hspan, hsize]

theorem coversMeasured_iff {span : Int} (hcenter : points[self]? = some center)
    (hreach : g.reach? radius = some span) (hspan : 0 ≤ span)
    (hfits : Fits (cellOf g.cellSize center) span) :
    g.CoversMeasured g.cellSize points self radius ↔
      ∀ p other, points[other]? = some p → (other, p.distSq center) ∈ measured points self radius →
        AtMostApart g.cellSize span p center := by
  constructor
  · intro hcovers p other hp hfound
    obtain ⟨hne, same, q, hsame, hq, -, hwithin⟩ := mem_measured_iff.mp hfound
    obtain rfl := Option.some.inj (hcenter.symm.trans hsame)
    obtain rfl := Option.some.inj (hp.symm.trans hq)
    exact (covers_iff_of_fits hreach hspan hfits).mp (hcovers center p other hcenter hp hne hwithin)
  · intro hapart same p other hsame hp hne hwithin
    obtain rfl := Option.some.inj (hcenter.symm.trans hsame)
    exact (covers_iff_of_fits hreach hspan hfits).mpr
      (hapart p other hp (mem_measured_iff.mpr ⟨hne, center, p, hcenter, hp, rfl, hwithin⟩))

/-! Doubles. -/

section

variable {cellSize radius : Float} {center p : Point Float} {points : List (Point Float)}
  {self : Nat} {span : Int} {g built : Grid Float}

theorem cellOf_double (cellSize : Float) (p : Point Float) : cellOf cellSize p =
    (Double.cellNumber (p.x / cellSize), Double.cellNumber (p.y / cellSize)) := rfl

theorem fits_cellOf_double (cellSize : Float) (p : Point Float) : Fits (cellOf cellSize p) 0 := by
  have hx := Double.cellNumber_mem (p.x / cellSize)
  have hy := Double.cellNumber_mem (p.y / cellSize)
  rw [Fits, cellOf_double]
  omega

/-- The coordinates of a point are finite, and the numbers of its cell are between the ends of the
range. -/
structure InRange (cellSize : Float) (p : Point Float) : Prop where
  x_finite : p.x.isFinite
  y_finite : p.y.isFinite
  fits : Fits (cellOf cellSize p) 1

/-- Points that are clearly within a radius of each other along both axes. -/
theorem atMostApart_of_isClear (hpos : Scalar.isFinitePos cellSize) (hradius : 0 ≤ radius)
    (hspan : Scalar.ceil? (radius / cellSize) = some span) (hp : InRange cellSize p)
    (hcenter : InRange cellSize center) (hx : Double.IsClear cellSize radius p.x center.x)
    (hy : Double.IsClear cellSize radius p.y center.y) : AtMostApart cellSize span p center := by
  obtain ⟨hc, h0⟩ := Scalar.isFinitePos_iff.mp hpos
  have quotients {p : Point Float} (h : InRange cellSize p) :
      (p.x / cellSize).isFinite ∧ (p.y / cellSize).isFinite := by
    obtain ⟨hxfinite, hyfinite, ⟨hleft, hright⟩, hbelow, habove⟩ := h
    exact ⟨Double.isFinite_div_of_cellNumber hxfinite hc h0 (Int.lt_of_le_sub_one hleft)
        (Int.lt_of_add_one_le hright),
      Double.isFinite_div_of_cellNumber hyfinite hc h0 (Int.lt_of_le_sub_one hbelow)
        (Int.lt_of_add_one_le habove)⟩
  obtain ⟨hxp, hyp⟩ := quotients hp
  obtain ⟨hxc, hyc⟩ := quotients hcenter
  -- neither point is in a cell too far from the other one, along either axis
  exact atMostApart_iff.mpr
    ⟨⟨Double.cellNumber_div_le_add hc h0 hp.x_finite hxp hcenter.x_finite hxc hradius hspan hx,
      Double.cellNumber_div_le_add hc h0 hcenter.x_finite hxc hp.x_finite hxp hradius hspan hx.symm⟩,
    Double.cellNumber_div_le_add hc h0 hp.y_finite hyp hcenter.y_finite hyc hradius hspan hy,
      Double.cellNumber_div_le_add hc h0 hcenter.y_finite hyc hp.y_finite hyp hradius hspan hy.symm⟩

/-- A search never finds what measuring does not find, and finds all that measuring finds if it
has no window. If it has one, of the cells that are at most `span` away from the one of the middle,
it finds nothing where one of these cells has no number, as is never so for points near the axes.
Otherwise it finds all that measuring finds if and only if that is in cells at most `span` apart
from the middle; and this is so if all of it is clearly within the radius along both axes. -/
theorem neighbors_eq_measured_iff (h : g.rebuild points = .ok built)
    (hcenter : points[self]? = some center) (hradius : 0 ≤ radius) :
    (∀ found ∈ built.neighbors self radius, found ∈ measured points self radius) ∧
    ((∀ span, ¬ HasWindow g.cellSize points radius span) →
      built.neighbors self radius = measured points self radius) ∧
    ∀ span, HasWindow g.cellSize points radius span →
      ((∀ p ∈ points, IsNear (cellOf g.cellSize p)) → Fits (cellOf g.cellSize center) span) ∧
      (¬ Fits (cellOf g.cellSize center) span → built.neighbors self radius = []) ∧
      (Fits (cellOf g.cellSize center) span →
        (built.neighbors self radius = measured points self radius ↔
          ∀ p other, points[other]? = some p →
            (other, p.distSq center) ∈ measured points self radius →
              AtMostApart g.cellSize span p center) ∧
        ((∀ p ∈ points, InRange g.cellSize p) →
          (∀ p other, points[other]? = some p →
            (other, p.distSq center) ∈ measured points self radius →
              Double.IsClear g.cellSize radius p.x center.x ∧
                Double.IsClear g.cellSize radius p.y center.y) →
          built.neighbors self radius = measured points self radius)) := by
  obtain ⟨hfiled, hcell, hpos⟩ := filed_of_rebuild h
  rw [← hcell] at hfiled hpos ⊢
  have hcovered : built.CoversMeasured built.cellSize points self radius →
      built.neighbors self radius = measured points self radius :=
    hfiled.neighbors_eq_of_covers hradius
  refine ⟨fun found hfound => hfiled.mem_measured hfound, fun hsweep => hcovered ?_,
    fun span hwindow => ?_⟩
  · intro center p other _ _ _ _ span hreach
    exact absurd (hfiled.reach?_eq_some_iff.mp hreach) (hsweep span)
  have hreach := hfiled.reach?_eq_some_iff.mpr hwindow
  have hself : built.points[self]? = some center := by rw [hfiled.getElem?_points, hcenter]
  obtain ⟨hc, h0⟩ := Scalar.isFinitePos_iff.mp hpos
  have hspan := Double.ceil?_div_nonneg hradius hc h0 hwindow.1
  refine ⟨fun hnear => fits_of_overflows_eq_false hself hradius
      (hfiled.overflows_eq_false hnear self radius) hreach, fun hover => ?_, fun hfits => ?_⟩
  · exact hfiled.neighborsVia_eq_nil (fun p _ => fits_cellOf_double _ p)
      ((overflows_iff hself).mpr ⟨hradius, span, hreach, hover⟩) _
  have hexact := coversMeasured_iff hcenter hreach hspan hfits
  refine ⟨⟨fun heq => hexact.mp (hfiled.covers_of_neighbors_eq heq),
    fun hapart => hcovered (hexact.mpr hapart)⟩, fun hrange hclear => hcovered (hexact.mpr ?_)⟩
  intro p other hp hfound
  obtain ⟨hx, hy⟩ := hclear p other hp hfound
  exact atMostApart_of_isClear hpos hradius hwindow.1 (hrange p (List.mem_of_getElem? hp))
    (hrange center (List.mem_of_getElem? hcenter)) hx hy

end

/-- Ten points in a row, a cell apart. -/
def row : List (Point Float) := (List.range 10).map fun k => ⟨Float.ofNat k + 0.5, 0⟩

/-- Twelve points in a row, an eighth less than a cell apart. -/
def closeRow : List (Point Float) := (List.range 12).map fun k => ⟨Float.ofNat k * 0.875 + 0.5, 0⟩

/-- A window of nine cells is searched, and finds the two points that are clearly within the
radius. -/
theorem neighbors_eq_measured_row :
    ∃ built, (empty (1 : Float)).rebuild closeRow = .ok built ∧
      HasWindow (1 : Float) closeRow 1 1 ∧
      built.neighbors 5 1 = [(4, 0.765625), (6, 0.765625)] := by
  have hrebuild : (empty (1 : Float)).rebuild closeRow = .ok _ := if_pos (by decide +kernel)
  have hself : closeRow[5]? = some ⟨4.875, 0⟩ := by decide +kernel
  have hwindow : HasWindow (1 : Float) closeRow 1 1 := ⟨by decide +kernel, by decide +kernel⟩
  have hmeasured : measured closeRow 5 1 = [(4, 0.765625), (6, 0.765625)] := by decide +kernel
  obtain ⟨-, -, hsearch⟩ := neighbors_eq_measured_iff hrebuild hself
    (by decide +kernel : (0 : Float) ≤ 1)
  obtain ⟨hnear, -, hfound⟩ := hsearch 1 hwindow
  refine ⟨_, hrebuild, hwindow, ?_⟩
  rw [← hmeasured]
  have hrange : ∀ p ∈ closeRow, p.x.isFinite ∧ p.y.isFinite ∧ Fits (cellOf 1 p) 1 := by
    decide +kernel
  have hclear : ∀ e ∈ closeRow.zipIdx, e.2 ∈ [4, 6] →
      Double.IsClear 1 1 e.1.x 4.875 ∧ Double.IsClear 1 1 e.1.y 0 := by decide +kernel
  refine (hfound (hnear (by decide +kernel))).2 (fun p hp => ?_) fun p other hp hclose => ?_
  · obtain ⟨hx, hy, hcell⟩ := hrange p hp
    exact ⟨hx, hy, hcell⟩
  · rw [hmeasured] at hclose
    exact hclear (p, other) (List.mem_zipIdx_iff_getElem?.mpr hp)
      (List.mem_map_of_mem (f := Prod.fst) hclose)

/-- Two points at a distance of less than `0.9`, and 47 points far away from them. -/
def scattered : List (Point Float) :=
  ⟨-1e-17, 0⟩ :: ⟨0.8999999999999999, 0⟩ ::
    (List.range 47).map fun k => ⟨Float.ofNat (10 * (k + 1)), 0⟩

/-- A search that misses a point within the radius. In cells of `0.3`, the quotient of
`0.8999999999999999` is rounded up to 3, so this point is filed under the cell behind
its own. The radius is a little more than three cells, but its quotient is rounded down
to 3, and from the cell on the other side of 0 the window does not get to the point.
With one point less there are too few buckets for a window; then all of them are looked
into, and the point is found. -/
theorem neighbors_ne_measured :
    (Scalar.isFinitePos (0.3 : Float) ∧ ∀ p ∈ scattered,
      Scalar.isFinite p.x ∧ Scalar.isFinite p.y ∧
        Double.leastCell < (cellOf 0.3 p).1 ∧ (cellOf 0.3 p).1 < Double.greatestCell ∧
        Double.leastCell < (cellOf 0.3 p).2 ∧ (cellOf 0.3 p).2 < Double.greatestCell) ∧
    measured scattered 0 0.9 = [(1, 0.8099999999999998)] ∧
    (∃ built, (empty 0.3).rebuild scattered = .ok built ∧ built.neighbors 0 0.9 = []) ∧
    ∃ built, (empty 0.3).rebuild scattered.dropLast = .ok built ∧
      built.neighbors 0 0.9 = [(1, 0.8099999999999998)] := by
  have hpos : Scalar.isFinitePos (0.3 : Float) := by decide +kernel
  have hspan : Scalar.ceil? ((0.9 : Float) / 0.3) = some 3 := by decide +kernel
  have hmeasured : measured scattered 0 0.9 = [(1, 0.8099999999999998)] := by decide +kernel
  have hsize : (scattered.map (cellOf (0.3 : Float))).dedup.length = 49 := by decide +kernel
  have hfewer : (scattered.dropLast.map (cellOf (0.3 : Float))).dedup.length = 48 := by
    decide +kernel
  refine ⟨⟨hpos, by decide +kernel⟩, hmeasured, ⟨_, if_pos hpos, ?_⟩, ⟨_, if_pos hpos, ?_⟩⟩
  · have hrebuild : (empty (0.3 : Float)).rebuild scattered = .ok _ := if_pos hpos
    have hreach := reach?_of_rebuild hrebuild hspan
    rw [hsize] at hreach
    obtain ⟨hfiled, -⟩ := filed_of_rebuild hrebuild
    -- what is found is measured, so it can only be the second point, whose cell is missed
    refine List.eq_nil_iff_forall_not_mem.mpr fun ⟨other, d⟩ hfound => ?_
    have hother := hfiled.mem_measured hfound
    rw [hmeasured, List.mem_singleton] at hother
    obtain ⟨rfl, rfl⟩ := Prod.mk.inj hother
    obtain ⟨-, -, center, p, hcenter, hp, -, -, hcovers⟩ :=
      (hfiled.mem_neighborsVia_iff (List.Perm.refl _)).mp hfound
    have hself : scattered[0]? = some ⟨-1e-17, 0⟩ := rfl
    have hmissed : scattered[1]? = some ⟨0.8999999999999999, 0⟩ := rfl
    obtain rfl := Option.some.inj (hself.symm.trans hcenter)
    obtain rfl := Option.some.inj (hmissed.symm.trans hp)
    have hcovered := hcovers 3 hreach
    exact absurd hcovered (by decide +kernel)
  · have hrebuild : (empty (0.3 : Float)).rebuild scattered.dropLast = .ok _ := if_pos hpos
    have hreach := reach?_of_rebuild hrebuild hspan
    rw [hfewer] at hreach
    have hfew : measured scattered.dropLast 0 0.9 = [(1, 0.8099999999999998)] := by
      decide +kernel
    rw [← hfew]
    refine (filed_of_rebuild hrebuild).1.neighbors_eq_of_covers (by decide +kernel) ?_
    intro center p other _ _ _ _ span hsome
    exact absurd (hreach.symm.trans hsome) (by simp)

end Grid

end Flock
