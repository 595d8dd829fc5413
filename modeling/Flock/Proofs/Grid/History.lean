import Flock.Proofs.Double.Compare
import Flock.Proofs.Grid.Measured

/-!
# The history of a grid

A grid lives on while it is rebuilt and while its cell size is changed. `Grid.rebuildInPlace` is
`Grid.rebuild` on a grid that is changed in place: it gives up before the first change, or it
empties the grid and files one point after another (`run_rebuildInPlace`). Whatever has been done
to a grid (`Grid.History`), its buckets hold the points of the last rebuild that was accepted,
filed under the cell size of that time (`History.filed`). So a search reports no point twice and
none that is too far away, also where the cell size of today has little to do with the buckets
(`searches_sound`).
-/

namespace Flock

namespace Grid

variable {α : Type} [Scalar α]

/-- Files a point by the cell size that the grid has at this moment. -/
def fileInPlace (entry : Point α × Nat) : EStateM (Fault α) (Grid α) Unit :=
  modify fun g => { g with buckets := file g.cellSize g.buckets entry }

/-- The rebuild in place. A refusal leaves everything as it has become until then. -/
def rebuildInPlace (points : List (Point α)) : EStateM (Fault α) (Grid α) Unit := do
  unless Scalar.isFinitePos (← get).cellSize do
    throw .badCellSize
  modify fun g => { g with points := #[] }
  modify fun g => { g with points := g.points ++ points.toArray }
  modify fun g => { g with buckets := ∅ }
  points.zipIdx.forM fileInPlace

/-- What has become of a new grid, and the points of the last rebuild that was accepted. Searches
change nothing, so they are left out. -/
inductive History : Grid α → List (Point α) → Prop where
  | empty (cellSize : α) : History (empty cellSize) []
  | rebuilt {g built : Grid α} {earlier points : List (Point α)} (h : History g earlier)
      (hrun : (rebuildInPlace points).run g = .ok () built) : History built points
  | refused {g left : Grid α} {earlier points : List (Point α)} {fault : Fault α}
      (h : History g earlier) (hrun : (rebuildInPlace points).run g = .error fault left) :
      History left earlier
  | resized {g : Grid α} {points : List (Point α)} (h : History g points) (cellSize : α) :
      History { g with cellSize := cellSize } points

variable {g : Grid α} {points : List (Point α)}

theorem run_forM_fileInPlace (entries : List (Point α × Nat)) (g : Grid α) :
    (entries.forM fileInPlace).run g =
      .ok () { g with buckets := entries.foldl (file g.cellSize) g.buckets } := by
  induction entries generalizing g with
  | nil => rfl
  | cons e entries ih => exact ih { g with buckets := file g.cellSize g.buckets e }

/-- A rebuild in place gives up before it has changed anything, or it makes what a rebuild makes. -/
theorem run_rebuildInPlace (points : List (Point α)) (g : Grid α) :
    (rebuildInPlace points).run g =
      match g.rebuild points with
      | .ok built => .ok () built
      | .error fault => .error fault g := by
  unfold rebuild
  by_cases hpos : Scalar.isFinitePos g.cellSize
  · have hemptied : (rebuildInPlace points).run g =
        (points.zipIdx.forM fileInPlace).run
          { g with points := #[] ++ points.toArray, buckets := ∅ } := by
      simp [rebuildInPlace, EStateM.run, bind, EStateM.bind, get, getThe, MonadStateOf.get,
        EStateM.get, hpos, modify, modifyGet, MonadStateOf.modifyGet, EStateM.modifyGet]
    rw [if_pos hpos, hemptied, run_forM_fileInPlace, Array.empty_append]
  · rw [if_neg hpos]
    simp [rebuildInPlace, EStateM.run, bind, EStateM.bind, get, getThe, MonadStateOf.get,
      EStateM.get, hpos, throw, throwThe, MonadExceptOf.throw, EStateM.throw]

theorem eq_of_run_eq_error {fault : Fault α} {left : Grid α}
    (h : (rebuildInPlace points).run g = .error fault left) : left = g := by
  rw [run_rebuildInPlace] at h
  split at h
  · exact absurd h (by simp)
  · injection h with _ hleft
    exact hleft.symm

theorem filed_empty (cellSize : α) : (empty cellSize).Filed cellSize [] where
  points_eq := rfl
  bucket_eq cell := by simp [empty, members]

theorem History.filed (h : History g points) : ∃ cellSize, g.Filed cellSize points := by
  induction h with
  | empty cellSize => exact ⟨cellSize, filed_empty cellSize⟩
  | rebuilt h hrun ih =>
      rw [run_rebuildInPlace] at hrun
      split at hrun
      · next built hbuilt =>
        injection hrun with _ hrun
        obtain rfl := hrun
        exact ⟨_, (filed_of_rebuild hbuilt).1⟩
      · exact absurd hrun (by simp)
  | refused h hrun ih =>
      obtain rfl := eq_of_run_eq_error hrun
      exact ih
  | resized h cellSize ih =>
      -- the points stay where they have been filed
      obtain ⟨earlier, hfiled⟩ := ih
      exact ⟨earlier, hfiled.points_eq, hfiled.bucket_eq⟩

/-- Whatever a grid has gone through, its buckets hold the points of the last accepted rebuild, each
of them once. A refused rebuild leaves it as it is, and a search reports every point once at most,
not the one that it is made for, and only points within the radius by the distance reported.
Nothing is reported for an unknown point or for a radius that is not at least 0. -/
theorem searches_sound {g : Grid Float} {points : List (Point Float)} (h : History g points)
    {occupied : List (List Nat)} (hoccupied : occupied.Perm g.buckets.values) (self : Nat)
    (radius : Float) :
    g.buckets.values.flatten.Perm (List.range points.length) ∧
    (∀ others fault left, (rebuildInPlace others).run g = .error fault left → left = g) ∧
    ((g.neighborsVia occupied self radius).map Prod.fst).Nodup ∧
    (∀ other d, (other, d) ∈ g.neighborsVia occupied self radius → other ≠ self ∧
      ∃ center p, points[self]? = some center ∧ points[other]? = some p ∧
        d = p.distSq center ∧ d.sqrt ≤ radius) ∧
    (points[self]? = none ∨ radius.isNaN ∨ radius < 0 →
      g.neighborsVia occupied self radius = []) := by
  obtain ⟨cellSize, hfiled⟩ := h.filed
  refine ⟨hfiled.values_perm, fun others fault left hrun => eq_of_run_eq_error hrun, ?_,
    fun other d hfound => ?_, fun hnone => ?_⟩
  · refine List.pairwise_map.mpr ((hfiled.pairwise_neighborsVia hoccupied self radius).imp ?_)
    exact fun hlt => Nat.ne_of_lt hlt
  · obtain ⟨-, hne, center, p, hcenter, hp, hd, hwithin, -⟩ :=
      (hfiled.mem_neighborsVia_iff hoccupied).mp hfound
    exact ⟨hne, center, p, hcenter, hp, hd.symm, of_decide_eq_true hwithin⟩
  · refine List.eq_nil_iff_forall_not_mem.mpr fun ⟨other, d⟩ hfound => ?_
    obtain ⟨hradius, -, center, -, hcenter, -⟩ :=
      (hfiled.mem_neighborsVia_iff hoccupied).mp hfound
    rcases hnone with hunknown | hnan | hneg
    · exact absurd (hcenter.symm.trans hunknown) (by simp)
    · exact absurd ((Double.isNaN_of_nonneg hradius).symm.trans hnan) Bool.false_ne_true
    · exact (Double.lt_iff_not_le hradius Double.zero_le_zero).mp hneg hradius

/-- A row of ten points whose cell size is set to 0 after it has been rebuilt. The next rebuild is
refused, and searches go on in the buckets of the first one. -/
theorem searches_sound_resized :
    ∃ built left, (rebuildInPlace row).run (empty (1 : Float)) = .ok () built ∧
      (rebuildInPlace []).run { built with cellSize := 0 } = .error .badCellSize left ∧
      left.buckets.values.flatten.Perm (List.range 10) ∧
      ((left.neighbors 4 1).map Prod.fst).Nodup ∧ left.neighbors 10 1 = [] ∧
      left.neighbors 4 (-1) = [] := by
  obtain ⟨built, hrun⟩ : ∃ built, (rebuildInPlace row).run (empty (1 : Float)) = .ok () built :=
    ⟨_, by rw [run_rebuildInPlace, rebuild, if_pos (by decide +kernel)]⟩
  have hbad : ¬ Scalar.isFinitePos (0 : Float) := by decide +kernel
  obtain ⟨left, hrefused⟩ : ∃ left,
      (rebuildInPlace []).run { built with cellSize := 0 } = .error .badCellSize left :=
    ⟨_, by rw [run_rebuildInPlace, rebuild, if_neg hbad]⟩
  have hhistory : History left row := .refused (.resized (.rebuilt (.empty 1) hrun) 0) hrefused
  have hsound := searches_sound hhistory (List.Perm.refl _)
  exact ⟨built, left, hrun, hrefused, (hsound 4 1).1, (hsound 4 1).2.2.1,
    (hsound 10 1).2.2.2.2 (.inl rfl), (hsound 4 (-1)).2.2.2.2 (.inr (.inr (by decide +kernel)))⟩

end Grid

end Flock
