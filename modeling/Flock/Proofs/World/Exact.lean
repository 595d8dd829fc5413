import Flock.Proofs.Grid.Exact
import Flock.Proofs.World.View

/-!
# Views in exact coordinates

With rational coordinates the answers of a view are exact: the agents near another one are
those at distance at most the radius, and every other answer is about the agents as they
are. The one exception is a search whose window reaches beyond the range of cell numbers,
which finds nobody (`World.view_exact_unless_overflows`), not even an agent at the same place
(`World.neighbors_eq_nil_outliers`). Where all agents lie within `2 ^ 62 - 1` cells of the axes
there is no such search.
-/

namespace Flock

namespace Grid

variable {cellSize : ℚ} {p : Point ℚ}

theorem isNear_cellOf_rat (hpos : 0 < cellSize) (hx : |p.x| ≤ (2 ^ 62 - 1) * cellSize)
    (hy : |p.y| ≤ (2 ^ 62 - 1) * cellSize) : IsNear (cellOf cellSize p) := by
  have near {a : ℚ} (ha : |a| ≤ (2 ^ 62 - 1) * cellSize) :
      1 - 2 ^ 62 ≤ ⌊a / cellSize⌋ ∧ ⌊a / cellSize⌋ < 2 ^ 62 := by
    obtain ⟨hlow, hhigh⟩ := abs_le.mp ha
    rw [← neg_mul, ← le_div_iff₀ hpos] at hlow
    rw [← div_le_iff₀ hpos] at hhigh
    have hceil := Int.floor_le (a / cellSize)
    constructor
    · rw [Int.le_floor]
      push_cast
      linarith
    · rw [Int.floor_lt]
      push_cast
      linarith
  obtain ⟨hleft, hright⟩ := near hx
  obtain ⟨hbelow, habove⟩ := near hy
  have hcell (a : ℚ) :
      Scalar.cellNumber a = max Double.leastCell (min Double.greatestCell ⌊a⌋) := rfl
  unfold IsNear InSquare cellOf
  rw [hcell, hcell, Double.leastCell_eq, Double.greatestCell_eq]
  omega

end Grid

variable {a b : AgentId} {v : View ℚ} {w : World ℚ} {radius : ℚ}

namespace View

/-- With rational coordinates a view finds the agents that are at distance at most the
radius, unless the search overflows. -/
theorem Shows.mem_neighbors_rat_iff (h : v.Shows w) (hsound : w.agents.Sound)
    (hpos : 0 < w.settings.cellSize) (hradius : 0 ≤ radius) (hfits : ¬ w.WindowOverflows a radius) :
    b ∈ v.neighbors a radius ↔ b ≠ a ∧ ∃ here there, w.agent? a = some here ∧
      w.agent? b = some there ∧ there.body.position.distSq here.body.position ≤ radius ^ 2 := by
  have hcell : 0 < v.grid.cellSize := by rwa [h.cellSize_eq]
  have hzero : (Scalar.zero : ℚ) ≤ radius := by rwa [Scalar.zero_rat]
  rw [h.mem_neighbors_iff_agents hsound, and_iff_right hzero]
  refine and_congr_right fun _ => exists_congr fun here => exists_congr fun there =>
    and_congr_right fun hhere => and_congr_right fun _ => ?_
  constructor
  · rintro ⟨hwithin, -⟩
    exact (Scalar.within_rat_iff.mp hwithin).2
  · intro hdist
    have hwithin := Scalar.within_rat_iff.mpr ⟨hradius, hdist⟩
    refine ⟨hwithin, Grid.covers_of_within hcell (fun span hreach => ?_) hwithin⟩
    by_contra hover
    rw [h.filed.reach?_eq_some_iff] at hreach
    rw [h.cellSize_eq] at hreach hover
    exact hfits ⟨here, hhere, span, hreach, hover⟩

end View

namespace World

/-- What the view of a reachable world answers, with rational coordinates: for an agent
that is found under the handle `a`, the others at distance at most a radius, but nobody if
the window of the search reaches beyond the range of cell numbers, as it never does for agents
within `2 ^ 62 - 1` cells of the axes; the others with a label; its position and its label; and
nothing under the handle of an agent that has been removed, whether or not its slot is in use
again. -/
theorem view_exact_unless_overflows [Circular ℚ] (h : Reachable w) :
    ∃ v, w.view = .ok v ∧
      (∀ a radius, 0 ≤ radius → (v.neighbors a radius).Nodup ∧
        (w.WindowOverflows a radius → v.neighbors a radius = []) ∧
        (¬ w.WindowOverflows a radius →
          ∀ b, b ∈ v.neighbors a radius ↔ b ≠ a ∧ ∃ here there, w.agent? a = some here ∧
            w.agent? b = some there ∧
              (there.body.position.x - here.body.position.x) ^ 2 +
                (there.body.position.y - here.body.position.y) ^ 2 ≤ radius ^ 2)) ∧
      ((∀ p ∈ w.positions, |p.x| ≤ (2 ^ 62 - 1) * w.settings.cellSize ∧
          |p.y| ≤ (2 ^ 62 - 1) * w.settings.cellSize) →
        ∀ a radius, 0 ≤ radius → ¬ w.WindowOverflows a radius) ∧
      (∀ a label, (v.labelled a label).Nodup ∧
        ∀ b, b ∈ v.labelled a label ↔
          b ≠ a ∧ ∃ there, w.agent? b = some there ∧ there.body.label = label) ∧
      (∀ a, v.position? a = (w.agent? a).map (·.body.position) ∧
        v.label? a = (w.agent? a).map (·.body.label)) ∧
      ∀ earlier a, Reachable earlier → (earlier.agent? a).isSome → Later (earlier.remove a) w →
        v.position? a = none ∧ v.label? a = none ∧
          ∀ radius, 0 ≤ radius → v.neighbors a radius = [] := by
  have hpos := h.isFinitePos_cellSize
  obtain ⟨v, hview, hshows⟩ := View.exists_shows hpos
  have hcell := Scalar.isFinitePos_rat_iff.mp hpos
  have hzero {radius : ℚ} (hradius : 0 ≤ radius) : (Scalar.zero : ℚ) ≤ radius := by
    rwa [Scalar.zero_rat]
  have hnobody {a : AgentId} {radius : ℚ} (hradius : 0 ≤ radius)
      (hover : w.WindowOverflows a radius) : v.neighbors a radius = [] :=
    hshows.neighbors_eq_nil (Grid.fits_cellOf_rat _)
      ((hshows.overflows_iff h.sound).mpr ⟨hzero hradius, hover⟩)
  have hneighbors {a b : AgentId} {radius : ℚ} (hradius : 0 ≤ radius) :=
    hshows.mem_neighbors_rat_iff (a := a) (b := b) h.sound hcell hradius
  refine ⟨v, hview, fun a radius hradius => ⟨hshows.nodup_neighbors h.sound a radius,
      hnobody hradius, fun hfits b => ?_⟩, fun hnear a radius hradius hover => ?_,
    fun a label => ⟨hshows.nodup_labelled h.sound a label, fun b =>
      hshows.mem_labelled_iff h.sound⟩,
    fun a => ⟨hshows.position?_eq a, hshows.label?_eq a⟩, ?_⟩
  · simpa only [Point.distSq_rat] using hneighbors hradius hfits
  · exact hshows.not_windowOverflows h.sound (fun p hp => Grid.isNear_cellOf_rat hcell
      (hnear p hp).1 (hnear p hp).2) (hzero hradius) hover
  · intro earlier a hearlier ha hlater
    have hgone := hearlier.agent?_of_later_remove ha hlater
    refine ⟨by rw [hshows.position?_eq, hgone]; rfl, by rw [hshows.label?_eq, hgone]; rfl,
      fun radius hradius => List.eq_nil_iff_forall_not_mem.mpr fun b hb => ?_⟩
    obtain ⟨-, -, here, -, hhere, -⟩ := (hshows.mem_neighbors_iff_agents h.sound).mp hb
    exact absurd (hgone.symm.trans hhere) (by simp)

/-- Two agents at distance 5. -/
def pair : World ℚ :=
  (World.add ⟨.default, .ofSeed 3, .empty, []⟩ (.atPoint ⟨0, 0⟩ "T")).add (.atPoint ⟨3, 4⟩ "T")

/-- The first of the two agents is removed, and another one gets its slot. It is to make a
step of length 3 along the first axis. -/
def slotReused : World ℚ :=
  ((pair.remove ⟨1, 0⟩).add (.atPoint ⟨0, 0⟩ "T")).updateAgent ⟨1, 2⟩
    (·.bind ⟨#[.action (.move ⟨9, 0⟩ 3), .action (.wait 1)], [0, 1]⟩)

/-- The agent that has got the slot of another one is seen where its step has taken it, and
under its own handle only. -/
theorem view_exact_unless_overflows_slot_reused :
    letI := Circular.quarterTurns
    Reachable slotReused.stepAgents.1.stepAgents.1 ∧
    ∃ v, slotReused.stepAgents.1.stepAgents.1.view = .ok v ∧
      ⟨2, 1⟩ ∈ v.neighbors ⟨1, 2⟩ 4 ∧ ⟨2, 1⟩ ∉ v.neighbors ⟨1, 2⟩ (39 / 10) ∧
      ⟨2, 1⟩ ∈ v.labelled ⟨1, 2⟩ "T" ∧ v.position? ⟨1, 2⟩ = some ⟨3, 0⟩ ∧
      v.position? ⟨1, 0⟩ = none ∧ v.neighbors ⟨1, 0⟩ 5 = [] := by
  let _ := Circular.quarterTurns
  have hstart : Reachable (⟨.default, .ofSeed 3, .empty, []⟩ : World ℚ) :=
    @Reachable.created ℚ _ _ .default 3 _ rfl
  have hpair : Reachable pair :=
    (hstart.changed (.spawned (p := ⟨0, 0⟩) rfl)).changed (.spawned (p := ⟨3, 4⟩) rfl)
  have hlater : Later (pair.remove ⟨1, 0⟩) slotReused.stepAgents.1.stepAgents.1 :=
    Relation.ReflTransGen.refl.tail (.spawned (p := ⟨0, 0⟩) rfl) |>.tail (.updated _ _ _)
      |>.tail (.stepped _) |>.tail (.stepped _)
  have hreachable := (hpair.changed (.removed _ _)).of_later hlater
  have hsecond : slotReused.stepAgents.1.stepAgents.1.agent? ⟨2, 1⟩ =
      some (.atPoint ⟨3, 4⟩ "T") := by decide +kernel
  have hthird : (slotReused.stepAgents.1.stepAgents.1.agent? ⟨1, 2⟩).map (·.body.position) =
      some ⟨3, 0⟩ := by decide +kernel
  obtain ⟨here, hhere, hposition⟩ := Option.map_eq_some_iff.mp hthird
  obtain ⟨v, hview, hneighbors, hnear, hlabelled, hbody, hgone⟩ :=
    view_exact_unless_overflows hreachable
  obtain ⟨hnowhere, -, hnone⟩ := hgone pair ⟨1, 0⟩ hpair (by decide +kernel) hlater
  have hfits (radius : ℚ) (hradius : 0 ≤ radius) :
      ¬ slotReused.stepAgents.1.stepAgents.1.WindowOverflows ⟨1, 2⟩ radius :=
    hnear (by decide +kernel) ⟨1, 2⟩ radius hradius
  refine ⟨hreachable, v, hview, ?_, ?_, ?_, ?_, hnowhere, hnone 5 (by norm_num)⟩
  · refine ((hneighbors ⟨1, 2⟩ 4 (by norm_num)).2.2 (hfits 4 (by norm_num)) _).mpr
      ⟨by decide, _, _, hhere, hsecond, ?_⟩
    rw [hposition]
    decide +kernel
  · intro hmate
    obtain ⟨-, same, there, hsame, hthere, hdist⟩ :=
      ((hneighbors ⟨1, 2⟩ (39 / 10) (by norm_num)).2.2 (hfits _ (by norm_num)) _).mp hmate
    obtain rfl := Option.some.inj (hhere.symm.trans hsame)
    obtain rfl := Option.some.inj (hsecond.symm.trans hthere)
    rw [hposition] at hdist
    exact absurd hdist (by decide +kernel)
  · exact ((hlabelled ⟨1, 2⟩ "T").2 _).mpr ⟨by decide, _, hsecond, rfl⟩
  · rw [(hbody ⟨1, 2⟩).1, hthird]

/-- Two agents in one place, far away from eight others. -/
def outliers : World ℚ := inRow [10 ^ 20, 10 ^ 20, 0, 20, 40, 60, 80, 100, 120, 140]

/-- Neither of the two sees the other one. The nine cells with an agent in them are as many as
the window has, and the cells at its right end would need numbers beyond the last one. -/
theorem neighbors_eq_nil_outliers :
    letI := Circular.quarterTurns
    Reachable outliers ∧ ∃ v here there, outliers.view = .ok v ∧
      outliers.agent? ⟨1, 0⟩ = some here ∧ outliers.agent? ⟨2, 1⟩ = some there ∧
        there.body.position = here.body.position ∧ v.neighbors ⟨1, 0⟩ 5 = [] := by
  let _ := Circular.quarterTurns
  have hreachable : Reachable outliers := reachable_inRow rfl fun _ _ => rfl
  obtain ⟨v, hview, hshows⟩ := View.exists_shows hreachable.isFinitePos_cellSize
  have hfirst : outliers.agent? ⟨1, 0⟩ = some (.atPoint ⟨10 ^ 20, 0⟩ "T") := by decide +kernel
  have hsecond : outliers.agent? ⟨2, 1⟩ = some (.atPoint ⟨10 ^ 20, 0⟩ "T") := by decide +kernel
  have hwindow : Grid.HasWindow outliers.settings.cellSize outliers.positions 5 1 :=
    ⟨by decide +kernel, by decide +kernel⟩
  have hover : v.overflows ⟨1, 0⟩ 5 := (hshows.overflows_iff hreachable.sound).mpr
    ⟨by decide +kernel, _, hfirst, 1, hwindow, by decide +kernel⟩
  exact ⟨hreachable, v, _, _, hview, hfirst, hsecond, rfl,
    hshows.neighbors_eq_nil (Grid.fits_cellOf_rat _) hover⟩

end World

end Flock
