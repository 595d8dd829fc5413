import Mathlib.Data.List.Dedup
import Mathlib.Data.List.Nodup
import Flock.World.Grid

/-!
# Points filed by cell

`Grid.members` lists the numbers of the points that fall in a cell. `Grid.Filed` says
of a grid that each of its buckets holds exactly these numbers, and that no bucket is
empty; rebuilding a grid brings this about (`filed_of_rebuild`), and changing the cell
size afterwards leaves it as it is. Buckets of different cells have no number in
common, so together they hold every number once.
-/

namespace Flock

namespace Grid

variable {α : Type} [Scalar α] {cellSize : α} {points : List (Point α)} {cell : Cell} {i : Nat}

/-- The numbers of the points that fall in a cell, the last one first. -/
def members (cellSize : α) (points : List (Point α)) (cell : Cell) : List Nat :=
  ((points.zipIdx.filter fun e => cellOf cellSize e.1 = cell).map (·.2)).reverse

theorem mem_members_iff :
    i ∈ members cellSize points cell ↔ ∃ p, points[i]? = some p ∧ cellOf cellSize p = cell := by
  simp only [members, List.mem_reverse, List.mem_map, List.mem_filter, decide_eq_true_eq,
    Prod.exists, List.mem_zipIdx_iff_getElem?]
  constructor
  · rintro ⟨p, other, ⟨hp, hcell⟩, rfl⟩
    exact ⟨p, hp, hcell⟩
  · rintro ⟨p, hp, hcell⟩
    exact ⟨p, i, ⟨hp, hcell⟩, rfl⟩

theorem nodup_members (cellSize : α) (points : List (Point α)) (cell : Cell) :
    (members cellSize points cell).Nodup := by
  have hindices : (points.zipIdx.map (·.2)).Nodup := by
    rw [List.zipIdx_map_snd]
    exact List.nodup_range'
  exact List.nodup_reverse.mpr (hindices.sublist (List.filter_sublist.map _))

/-- Numbers in the buckets of two cells are different. -/
theorem disjoint_members {other : Cell} (h : cell ≠ other) :
    List.Disjoint (members cellSize points cell) (members cellSize points other) := by
  intro i hi hother
  obtain ⟨p, hp, rfl⟩ := mem_members_iff.mp hi
  obtain ⟨q, hq, rfl⟩ := mem_members_iff.mp hother
  obtain rfl := Option.some.inj (hp.symm.trans hq)
  exact h rfl

/-- The points of a grid are filed in its buckets, each under the cell that it falls in
when cells have the given size. -/
structure Filed (g : Grid α) (cellSize : α) (points : List (Point α)) : Prop where
  points_eq : g.points = points.toArray
  bucket_eq : ∀ cell, g.buckets[cell]? =
    if members cellSize points cell = [] then none else some (members cellSize points cell)

/-! Filing one point after another. -/

theorem getElem?_file (cellSize : α) (buckets : Std.HashMap Cell (List Nat))
    (e : Point α × Nat) (cell : Cell) :
    (file cellSize buckets e)[cell]? =
      if cellOf cellSize e.1 = cell then some (e.2 :: buckets.getD cell [])
      else buckets[cell]? := by
  rw [file, Std.HashMap.getElem?_insert]
  by_cases h : cellOf cellSize e.1 = cell
  · simp [h]
  · simp [h]

theorem getElem?_foldl_file (cellSize : α) (entries : List (Point α × Nat))
    (buckets : Std.HashMap Cell (List Nat)) (cell : Cell) :
    (entries.foldl (file cellSize) buckets)[cell]? =
      if entries.filter (fun e => cellOf cellSize e.1 = cell) = [] then buckets[cell]?
      else some (((entries.filter fun e => cellOf cellSize e.1 = cell).map (·.2)).reverse ++
        buckets.getD cell []) := by
  -- filing goes on from the buckets that it has made, so the statement is about any buckets
  induction entries generalizing buckets with
  | nil => simp
  | cons e entries ih =>
      rw [List.foldl_cons, ih, Std.HashMap.getD_eq_getD_getElem?, getElem?_file]
      by_cases hcell : cellOf cellSize e.1 = cell
      · by_cases hrest : entries.filter (fun e => cellOf cellSize e.1 = cell) = []
        · simp [hcell, hrest]
        · simp [hcell, hrest]
      · rw [List.filter_cons_of_neg (by simpa using hcell)]
        simp [hcell, Std.HashMap.getD_eq_getD_getElem?]

/-- A grid that has been rebuilt has its points filed under its own cell size, which is
a positive number. -/
theorem filed_of_rebuild {g built : Grid α} (h : g.rebuild points = .ok built) :
    built.Filed g.cellSize points ∧ built.cellSize = g.cellSize ∧
      Scalar.isFinitePos g.cellSize := by
  unfold rebuild at h
  split at h
  · next hpos =>
    obtain rfl := Except.ok.inj h
    refine ⟨⟨rfl, ?_⟩, rfl, hpos⟩
    intro cell
    rw [getElem?_foldl_file]
    by_cases hnone : points.zipIdx.filter (fun e => cellOf g.cellSize e.1 = cell) = []
    · simp [members, hnone]
    · simp [members, hnone]
  · exact absurd h (by simp)

namespace Filed

variable {g : Grid α} (h : g.Filed cellSize points)

include h

theorem getElem?_points (i : Nat) : g.points[i]? = points[i]? := by
  rw [h.points_eq, List.getElem?_toArray]

theorem eq_members {bucket : List Nat} (hbucket : g.buckets[cell]? = some bucket) :
    bucket = members cellSize points cell := by
  rw [h.bucket_eq] at hbucket
  split at hbucket
  · exact absurd hbucket (by simp)
  · exact (Option.some.inj hbucket).symm

/-- The bucket of a cell that some point falls in. -/
theorem bucket_cellOf {p : Point α} (hp : points[i]? = some p) :
    g.buckets[cellOf cellSize p]? = some (members cellSize points (cellOf cellSize p)) := by
  have hmem : i ∈ members cellSize points (cellOf cellSize p) := mem_members_iff.mpr ⟨p, hp, rfl⟩
  rw [h.bucket_eq, if_neg (List.ne_nil_of_mem hmem)]

/-- There are as many buckets as cells with a point in them. -/
theorem size_buckets : g.buckets.size = (points.map (cellOf cellSize)).dedup.length := by
  rw [← Std.HashMap.length_keys]
  refine List.Perm.length_eq ((List.perm_ext_iff_of_nodup g.buckets.nodup_keys
    (List.nodup_dedup _)).mpr fun cell => ?_)
  rw [Std.HashMap.mem_keys, List.mem_dedup, List.mem_map, Std.HashMap.mem_iff_isSome_getElem?,
    h.bucket_eq]
  constructor
  · intro hsome
    split at hsome
    · exact absurd hsome (by simp)
    · next hne =>
      obtain ⟨i, hi⟩ := List.exists_mem_of_ne_nil _ hne
      obtain ⟨p, hp, hcell⟩ := mem_members_iff.mp hi
      exact ⟨p, List.mem_of_getElem? hp, hcell⟩
  · rintro ⟨p, hp, rfl⟩
    obtain ⟨i, hi⟩ := List.mem_iff_getElem?.mp hp
    have hmem : i ∈ members cellSize points (cellOf cellSize p) :=
      mem_members_iff.mpr ⟨p, hi, rfl⟩
    simp [List.ne_nil_of_mem hmem]

end Filed

end Grid

end Flock
