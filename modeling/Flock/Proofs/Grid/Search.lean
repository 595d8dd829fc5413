import Mathlib.Data.List.Sort
import Flock.Proofs.Grid.Buckets
import Flock.Proofs.Grid.Window

/-!
# What a search finds

A search looks through the buckets of a window of cells, or through all of them, and
measures the distance of every point that it meets. As buckets have no number in
common, it meets no point twice, and it meets a point if and only if the cell under
which the point is filed is covered by the search (`Grid.Covers`). So it finds the
points within the radius whose cells it covers, in the order of their numbers
(`Filed.mem_neighborsVia_iff`, `Filed.pairwise_neighborsVia`), in whatever order the
buckets are stored.
-/

namespace Flock

namespace Grid

variable {α : Type} [Scalar α] {cellSize radius : α} {points : List (Point α)} {span : Int}
  {center p : Point α} {self other : Nat} {d : α}

/-! The search window. -/

/-- A search around a point looks into a cell: the cell lies in the window, if the
search has one. -/
def Covers (g : Grid α) (center : Point α) (radius : α) (cell : Cell) : Prop :=
  ∀ span, g.reach? radius = some span → cell ∈ window (cellOf g.cellSize center) span

theorem reach?_eq_some_iff {g : Grid α} :
    g.reach? radius = some span ↔ Scalar.ceil? (radius / g.cellSize) = some span ∧
      (2 * span + 1) * (2 * span + 1) ≤ (g.buckets.size : Int) := by
  unfold reach?
  cases hceil : Scalar.ceil? (radius / g.cellSize) with
  | none => simp
  | some whole =>
      by_cases hfew : (g.buckets.size : Int) < (2 * whole + 1) * (2 * whole + 1)
      · simp only [hfew, if_true, reduceCtorEq, Option.some.injEq, false_iff, not_and, not_le]
        rintro rfl
        exact hfew
      · simp only [hfew, if_false, Option.some.injEq, iff_self_and]
        rintro rfl
        omega

/-! The report on a bucket. -/

theorem mem_report_iff {g : Grid α} {bucket : List Nat} :
    (other, d) ∈ g.report self center radius bucket ↔
      other ∈ bucket ∧ other ≠ self ∧
        ∃ p, g.points[other]? = some p ∧ p.distSq center = d ∧ Scalar.within d radius := by
  simp only [report, List.mem_filterMap]
  constructor
  · rintro ⟨i, hi, hfound⟩
    split at hfound
    · exact absurd hfound (by simp)
    · next hne =>
      split at hfound
      · exact absurd hfound (by simp)
      · next p hp =>
        by_cases hwithin : Scalar.within (p.distSq center) radius
        · rw [if_pos hwithin] at hfound
          obtain ⟨rfl, rfl⟩ := Prod.mk.inj (Option.some.inj hfound)
          exact ⟨hi, hne, p, hp, rfl, hwithin⟩
        · exact absurd hfound (by simp [hwithin])
  · rintro ⟨hi, hne, p, hp, rfl, hwithin⟩
    exact ⟨other, hi, by simp [hne, hp, hwithin]⟩

theorem flatMap_report (g : Grid α) (self : Nat) (center : Point α) (radius : α)
    (buckets : List (List Nat)) :
    buckets.flatMap (g.report self center radius) =
      g.report self center radius buckets.flatten :=
  List.filterMap_flatten.symm

/-- No number is reported twice. -/
theorem pairwise_report {g : Grid α} {bucket : List Nat} (h : bucket.Nodup) :
    (g.report self center radius bucket).Pairwise fun a b => a.1 ≠ b.1 := by
  rw [report, List.pairwise_filterMap]
  refine h.imp ?_
  rintro i j hne ⟨k, d⟩ hk ⟨l, e⟩ hl
  have hi : (k, d) ∈ g.report self center radius [i] := List.mem_filterMap.mpr ⟨i, by simp, hk⟩
  have hj : (l, e) ∈ g.report self center radius [j] := List.mem_filterMap.mpr ⟨j, by simp, hl⟩
  obtain rfl := List.mem_singleton.mp (mem_report_iff.mp hi).1
  obtain rfl := List.mem_singleton.mp (mem_report_iff.mp hj).1
  exact hne

omit [Scalar α] in
/-- Reports with different numbers are put in strictly increasing order. -/
theorem pairwise_mergeSort {found : List (Nat × α)} (h : found.Pairwise fun a b => a.1 ≠ b.1) :
    (found.mergeSort before).Pairwise fun a b => a.1 < b.1 := by
  have hsorted := @List.pairwise_mergeSort (Nat × α) before
    (fun a b c hab hbc => by
      simp only [before, decide_eq_true_eq] at *
      omega)
    (fun a b => by
      simp only [before, Bool.or_eq_true, decide_eq_true_eq]
      omega)
    found
  have hdistinct := (List.mergeSort_perm found before).symm.pairwise h fun hne => hne.symm
  refine (hsorted.and hdistinct).imp fun hab => ?_
  simp only [before, decide_eq_true_eq] at hab
  omega

/-! The buckets that are searched. -/

theorem values_eq (buckets : Std.HashMap Cell (List Nat)) :
    buckets.values = buckets.keys.filterMap fun cell => buckets[cell]? := by
  -- the two lists are made from the same internal list of associations, in its order
  have hvalues : buckets.values = buckets.toList.map Prod.snd := by
    rw [Std.HashMap.values, Std.HashMap.toList, Std.DHashMap.values, Std.DHashMap.Const.toList,
      Std.DHashMap.Internal.Raw.values_eq_values_toListModel,
      Std.DHashMap.Internal.Raw.Const.toList_eq_toListModel_map,
      Std.Internal.List.values_eq_map, List.map_map]
    rfl
  rw [hvalues, ← Std.HashMap.map_fst_toList_eq_keys, List.filterMap_map, ← List.filterMap_eq_map]
  refine List.filterMap_congr fun e he => ?_
  simpa using (Std.HashMap.mem_toList_iff_getElem?_eq_some.mp he).symm

namespace Filed

variable {g : Grid α} (h : g.Filed cellSize points)

include h

/-- The buckets of different cells hold different points, those that fall in one of the
cells. -/
theorem nodup_buckets {cells : List Cell} (hcells : cells.Nodup) :
    (cells.filterMap fun cell => g.buckets[cell]?).flatten.Nodup := by
  refine List.nodup_flatten.mpr ⟨?_, ?_⟩
  · intro bucket hbucket
    obtain ⟨cell, -, hcell⟩ := List.mem_filterMap.mp hbucket
    rw [h.eq_members hcell]
    exact nodup_members cellSize points cell
  · refine List.pairwise_filterMap.mpr (hcells.imp fun hne bucket hbucket other hother => ?_)
    rw [h.eq_members hbucket, h.eq_members hother]
    exact disjoint_members hne

theorem mem_buckets_iff {cells : List Cell} {i : Nat} :
    i ∈ (cells.filterMap fun cell => g.buckets[cell]?).flatten ↔
      ∃ p, points[i]? = some p ∧ cellOf cellSize p ∈ cells := by
  simp only [List.mem_flatten, List.mem_filterMap]
  constructor
  · rintro ⟨bucket, ⟨cell, hcell, hbucket⟩, hi⟩
    rw [h.eq_members hbucket] at hi
    obtain ⟨p, hp, rfl⟩ := mem_members_iff.mp hi
    exact ⟨p, hp, hcell⟩
  · rintro ⟨p, hp, hcell⟩
    exact ⟨_, ⟨_, hcell, h.bucket_cellOf hp⟩, mem_members_iff.mpr ⟨p, hp, rfl⟩⟩

/-- Together the buckets hold the number of every point once, and nothing else. -/
theorem values_perm : g.buckets.values.flatten.Perm (List.range points.length) := by
  rw [values_eq]
  refine (List.perm_ext_iff_of_nodup (h.nodup_buckets g.buckets.nodup_keys)
    List.nodup_range).mpr fun i => ?_
  rw [h.mem_buckets_iff, List.mem_range]
  constructor
  · rintro ⟨p, hp, -⟩
    exact (List.getElem?_eq_some_iff.mp hp).1
  · intro hi
    have hp := List.getElem?_eq_getElem hi
    refine ⟨points[i], hp, ?_⟩
    rw [Std.HashMap.mem_keys, Std.HashMap.mem_iff_isSome_getElem?, h.bucket_cellOf hp]
    rfl

section Neighbors

variable {occupied : List (List Nat)} (hoccupied : occupied.Perm g.buckets.values)

include hoccupied

/-- A search goes once through the points that are filed under the cells it covers. -/
theorem searched_spec (center : Point α) (radius : α) :
    (g.searched occupied center radius).flatten.Nodup ∧
      ∀ i, i ∈ (g.searched occupied center radius).flatten ↔
        ∃ p, points[i]? = some p ∧ g.Covers center radius (cellOf cellSize p) := by
  unfold searched
  cases hreach : g.reach? radius with
  | none =>
      have hperm := hoccupied.flatten.trans h.values_perm
      refine ⟨hperm.nodup_iff.mpr List.nodup_range, fun i => ?_⟩
      rw [hperm.mem_iff, List.mem_range]
      simp [Covers, hreach, List.getElem?_eq_some_iff]
  | some span =>
      refine ⟨h.nodup_buckets (nodup_window _ _), fun i => ?_⟩
      rw [h.mem_buckets_iff]
      simp [Covers, hreach]

/-- What a search finds: the other points within the radius whose cells it covers. -/
theorem mem_neighborsVia_iff :
    (other, d) ∈ g.neighborsVia occupied self radius ↔
      Scalar.zero ≤ radius ∧ other ≠ self ∧ ∃ center p, points[self]? = some center ∧
        points[other]? = some p ∧ p.distSq center = d ∧ Scalar.within d radius ∧
          g.Covers center radius (cellOf cellSize p) := by
  unfold neighborsVia
  rw [h.getElem?_points]
  cases hcenter : points[self]? with
  | none => simp
  | some center =>
      by_cases hradius : Scalar.zero ≤ radius
      · simp only [hradius, if_true, List.mem_mergeSort, flatMap_report, mem_report_iff,
          (h.searched_spec hoccupied center radius).2, h.getElem?_points]
        constructor
        · rintro ⟨⟨p, hp, hcovers⟩, hne, q, hq, rfl, hwithin⟩
          obtain rfl := Option.some.inj (hp.symm.trans hq)
          exact ⟨trivial, hne, center, p, rfl, hp, rfl, hwithin, hcovers⟩
        · rintro ⟨-, hne, other, p, hother, hp, rfl, hwithin, hcovers⟩
          obtain rfl := Option.some.inj hother
          exact ⟨⟨p, hp, hcovers⟩, hne, p, hp, rfl, hwithin⟩
      · simp [hradius]

/-- The points found are listed in the order of their numbers, each of them once. -/
theorem pairwise_neighborsVia (self : Nat) (radius : α) :
    (g.neighborsVia occupied self radius).Pairwise fun a b => a.1 < b.1 := by
  unfold neighborsVia
  split
  · exact .nil
  · next center _ =>
    split
    · rw [flatMap_report]
      exact pairwise_mergeSort (pairwise_report (h.searched_spec hoccupied center radius).1)
    · exact .nil

end Neighbors

end Filed

end Grid

end Flock
