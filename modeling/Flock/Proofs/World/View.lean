import Flock.Proofs.Grid.Overflow
import Flock.Proofs.World.Reachable

/-!
# What a view answers

A view of a world lists its agents, each under its handle, and has their positions filed
in a grid under their places in this list (`View.Shows`). As the handles are different
from each other, a handle has one place, and what the grid says about places can be read
as statements about handles.

Whether the search of an agent overflows can be told from the world, too
(`View.Shows.overflows_iff`). If it does, the agent sees no other one
(`View.Shows.neighbors_eq_nil`).
-/

namespace Flock

variable {α : Type} [Scalar α] {v : View α} {w : World α} {a b : AgentId}

namespace AgentId

theorem sort_perm (ids : List AgentId) : (sort ids).Perm ids := List.mergeSort_perm ids before

theorem mem_sort_iff {ids : List AgentId} : a ∈ sort ids ↔ a ∈ ids := (sort_perm ids).mem_iff

theorem nodup_sort_iff {ids : List AgentId} : (sort ids).Nodup ↔ ids.Nodup :=
  (sort_perm ids).nodup_iff

end AgentId

namespace World

omit [Scalar α] in
theorem map_id_sightings (w : World α) : w.sightings.map (·.id) = w.agents.ids := by
  simp [sightings, Roster.ids]

omit [Scalar α] in
theorem mem_sightings_iff {s : Sighting α} (h : w.agents.Sound) :
    s ∈ w.sightings ↔ ∃ agent, w.agent? s.id = some agent ∧ agent.body.position = s.position ∧
      agent.body.label = s.label := by
  simp only [sightings, List.mem_map, agent?, Roster.find?_eq_some_iff h]
  constructor
  · rintro ⟨⟨id, agent⟩, he, rfl⟩
    exact ⟨agent, he, rfl, rfl⟩
  · rintro ⟨agent, he, hposition, hlabel⟩
    exact ⟨(s.id, agent), he, by cases s; simp_all⟩

omit [Scalar α] in
theorem exists_place {agent : Agent α} (h : w.agents.Sound) (hagent : w.agent? a = some agent) :
    ∃ i : Nat, w.sightings[i]? = some ⟨a, agent.body.position, agent.body.label⟩ := by
  have hmem : ⟨a, agent.body.position, agent.body.label⟩ ∈ w.sightings :=
    (mem_sightings_iff h).mpr ⟨agent, hagent, rfl, rfl⟩
  exact List.mem_iff_getElem?.mp hmem

omit [Scalar α] in
/-- A handle has one place in the list of sightings. -/
theorem place_unique {i j : Nat} {s t : Sighting α} (h : w.agents.Sound)
    (hs : w.sightings[i]? = some s) (ht : w.sightings[j]? = some t) (hid : s.id = t.id) : i = j := by
  have hids := h.nodup
  rw [← map_id_sightings] at hids
  obtain ⟨hi, -⟩ := List.getElem?_eq_some_iff.mp hs
  refine (List.getElem?_inj (by rwa [List.length_map]) hids).mp ?_
  rw [List.getElem?_map, List.getElem?_map, hs, ht, Option.map_some, Option.map_some, hid]

/-- Where the agents stand, in the order of arrival. -/
def positions (w : World α) : List (Point α) := w.sightings.map (·.position)

/-- A search for the agents near one of them has a window that reaches beyond the range of
cell numbers. -/
def WindowOverflows (w : World α) (a : AgentId) (radius : α) : Prop :=
  ∃ here, w.agent? a = some here ∧
    ∃ span, Grid.HasWindow w.settings.cellSize w.positions radius span ∧
      ¬ Grid.Fits (Grid.cellOf w.settings.cellSize here.body.position) span

end World

namespace View

/-- A view shows a world: it lists the agents of the world, and their positions are filed
in its grid. -/
structure Shows (v : View α) (w : World α) : Prop where
  sightings_eq : v.sightings = w.sightings
  regions_eq : v.regions = w.regions
  cellSize_eq : v.grid.cellSize = w.settings.cellSize
  filed : v.grid.Filed v.grid.cellSize (w.sightings.map (·.position))

theorem shows_of_view (h : w.view = .ok v) : v.Shows w := by
  obtain ⟨grid, hgrid, h⟩ := bind_eq_ok_iff.mp h
  obtain rfl := Except.ok.inj h
  obtain ⟨hfiled, hcell, -⟩ := Grid.filed_of_rebuild hgrid
  refine ⟨rfl, rfl, hcell, ?_⟩
  rw [hcell]
  exact hfiled

/-- A world with a positive cell size can be viewed. -/
theorem exists_shows (h : Scalar.isFinitePos w.settings.cellSize) :
    ∃ v, w.view = .ok v ∧ v.Shows w := by
  have hbuilt : (Grid.empty w.settings.cellSize).rebuild (w.sightings.map (·.position)) =
      .ok _ := if_pos h
  have hview : w.view = .ok _ := bind_eq_ok_iff.mpr ⟨_, hbuilt, rfl⟩
  exact ⟨_, hview, shows_of_view hview⟩

namespace Shows

variable (h : v.Shows w)

include h

theorem inRegion_eq : v.surroundings.inRegion = w.inRegion := by
  change Region.anyContains v.regions = Region.anyContains w.regions
  rw [h.regions_eq]

theorem find?_eq (a : AgentId) :
    v.find? a = (w.agents.entries.find? (·.1 = a)).map fun e =>
      ⟨e.1, e.2.body.position, e.2.body.label⟩ := by
  rw [find?, h.sightings_eq, World.sightings, List.find?_map]
  rfl

theorem position?_eq (a : AgentId) : v.position? a = (w.agent? a).map (·.body.position) := by
  rw [position?, h.find?_eq, World.agent?, Roster.find?, Option.map_map, Option.map_map]
  rfl

theorem label?_eq (a : AgentId) : v.label? a = (w.agent? a).map (·.body.label) := by
  rw [label?, h.find?_eq, World.agent?, Roster.find?, Option.map_map, Option.map_map]
  rfl

/-- Near an agent whose search overflows there is no other one. -/
theorem neighbors_eq_nil {radius : α}
    (hcells : ∀ p : Point α, Grid.Fits (Grid.cellOf v.grid.cellSize p) 0)
    (hover : v.overflows a radius) : v.neighbors a radius = [] := by
  unfold overflows at hover
  unfold neighbors
  split
  · rfl
  · next self hself =>
    rw [hself] at hover
    have hnone := h.filed.neighborsVia_eq_nil (fun p _ => hcells p) hover v.grid.buckets.values
    simp [Grid.neighbors, hnone, AgentId.sort]

/-- No search overflows if all agents are near the axes. -/
theorem overflows_eq_false
    (hcells : ∀ p ∈ w.positions, Grid.IsNear (Grid.cellOf w.settings.cellSize p)) (a : AgentId)
    (radius : α) : v.overflows a radius = false := by
  rw [← h.cellSize_eq] at hcells
  unfold overflows
  split
  · rfl
  · exact h.filed.overflows_eq_false hcells _ radius

section Sound

variable (hsound : w.agents.Sound)

include hsound

theorem mem_labelled_iff {label : String} :
    b ∈ v.labelled a label ↔
      b ≠ a ∧ ∃ agent, w.agent? b = some agent ∧ agent.body.label = label := by
  simp only [labelled, h.sightings_eq, AgentId.mem_sort_iff, List.mem_map, List.mem_filter,
    Bool.and_eq_true, decide_eq_true_eq, World.mem_sightings_iff hsound]
  constructor
  · rintro ⟨s, ⟨⟨agent, hagent, -, hlabel⟩, hne, rfl⟩, rfl⟩
    exact ⟨hne, agent, hagent, hlabel⟩
  · rintro ⟨hne, agent, hagent, rfl⟩
    exact ⟨⟨b, agent.body.position, agent.body.label⟩, ⟨⟨agent, hagent, rfl, rfl⟩, hne, rfl⟩, rfl⟩

theorem nodup_labelled (a : AgentId) (label : String) : (v.labelled a label).Nodup := by
  rw [labelled, h.sightings_eq, AgentId.nodup_sort_iff]
  have hids := hsound.nodup
  rw [← World.map_id_sightings] at hids
  exact hids.sublist (List.filter_sublist.map _)

theorem findIdx?_eq_some_iff {self : Nat} :
    v.sightings.findIdx? (·.id = a) = some self ↔
      ∃ s, w.sightings[self]? = some s ∧ s.id = a := by
  rw [h.sightings_eq, List.findIdx?_eq_some_iff_getElem]
  constructor
  · rintro ⟨hself, hid, -⟩
    exact ⟨_, List.getElem?_eq_getElem hself, by simpa using hid⟩
  · rintro ⟨s, hs, hid⟩
    obtain ⟨hself, heq⟩ := List.getElem?_eq_some_iff.mp hs
    -- no earlier place has the handle, as it has this one
    refine ⟨hself, by simpa [heq] using hid, fun i hi hfound => ?_⟩
    have hsame : w.sightings[i].id = a := by simpa using hfound
    have hplace := World.place_unique hsound (List.getElem?_eq_getElem (hi.trans hself)) hs
      (hsame.trans hid.symm)
    omega

/-- The agents that a view finds near another one, by what its grid finds. -/
theorem mem_neighbors_iff {radius : α} :
    b ∈ v.neighbors a radius ↔ ∃ self other d s t,
      w.sightings[self]? = some s ∧ s.id = a ∧ w.sightings[other]? = some t ∧ t.id = b ∧
        (other, d) ∈ v.grid.neighbors self radius := by
  unfold neighbors
  split
  · next hnone =>
    constructor
    · intro hmem
      exact absurd hmem List.not_mem_nil
    · rintro ⟨self, other, d, s, t, hs, hid, -⟩
      have hself := (h.findIdx?_eq_some_iff hsound).mpr ⟨s, hs, hid⟩
      exact absurd (hnone.symm.trans hself) (by simp)
  · next self hself =>
    obtain ⟨s, hs, hid⟩ := (h.findIdx?_eq_some_iff hsound).mp hself
    simp only [AgentId.mem_sort_iff, List.mem_filterMap, h.sightings_eq, Option.map_eq_some_iff]
    constructor
    · rintro ⟨⟨other, d⟩, hfound, t, ht, rfl⟩
      exact ⟨self, other, d, s, t, hs, hid, ht, rfl, hfound⟩
    · rintro ⟨same, other, d, t, u, ht, htid, hu, rfl, hfound⟩
      obtain rfl := World.place_unique hsound hs ht (hid.trans htid.symm)
      exact ⟨(other, d), hfound, u, hu, rfl⟩

/-- The agents that a view finds near another one, by the agents of the world. -/
theorem mem_neighbors_iff_agents {radius : α} :
    b ∈ v.neighbors a radius ↔ Scalar.zero ≤ radius ∧ b ≠ a ∧ ∃ here there,
      w.agent? a = some here ∧ w.agent? b = some there ∧
      Scalar.within (there.body.position.distSq here.body.position) radius ∧
      v.grid.Covers here.body.position radius
        (Grid.cellOf v.grid.cellSize there.body.position) := by
  simp only [h.mem_neighbors_iff hsound, Grid.neighbors,
    h.filed.mem_neighborsVia_iff (List.Perm.refl _), List.getElem?_map, Option.map_eq_some_iff]
  constructor
  · rintro ⟨self, other, d, s, t, hs, rfl, ht, rfl, hradius, hne, -, -, ⟨s', hs', rfl⟩,
      ⟨t', ht', rfl⟩, rfl, hwithin, hcovers⟩
    obtain rfl := Option.some.inj (hs.symm.trans hs')
    obtain rfl := Option.some.inj (ht.symm.trans ht')
    obtain ⟨here, hhere, hposition, -⟩ :=
      (World.mem_sightings_iff hsound).mp (List.mem_of_getElem? hs)
    obtain ⟨there, hthere, hposition', -⟩ :=
      (World.mem_sightings_iff hsound).mp (List.mem_of_getElem? ht)
    refine ⟨hradius, fun hid => hne (World.place_unique hsound ht hs hid), here, there, hhere,
      hthere, ?_⟩
    rw [hposition, hposition']
    exact ⟨hwithin, hcovers⟩
  · rintro ⟨hradius, hne, here, there, hhere, hthere, hwithin, hcovers⟩
    obtain ⟨self, hself⟩ := World.exists_place hsound hhere
    obtain ⟨other, hother⟩ := World.exists_place hsound hthere
    refine ⟨self, other, _, _, _, hself, rfl, hother, rfl, hradius, ?_, _, _, ⟨_, hself, rfl⟩,
      ⟨_, hother, rfl⟩, rfl, hwithin, hcovers⟩
    rintro rfl
    exact hne (congrArg Sighting.id (Option.some.inj (hother.symm.trans hself)))

/-- Whether a search overflows can be told from the agents of the world. -/
theorem overflows_iff {radius : α} :
    v.overflows a radius ↔ Scalar.zero ≤ radius ∧ w.WindowOverflows a radius := by
  unfold overflows World.WindowOverflows
  rw [← h.cellSize_eq]
  split
  · next hnone =>
    have hgone (here : Agent α) : w.agent? a ≠ some here := by
      intro hhere
      obtain ⟨self, hself⟩ := World.exists_place hsound hhere
      have hplace := (h.findIdx?_eq_some_iff hsound).mpr ⟨_, hself, rfl⟩
      exact absurd (hnone.symm.trans hplace) (by simp)
    simp [hgone]
  · next self hself =>
    obtain ⟨s, hs, rfl⟩ := (h.findIdx?_eq_some_iff hsound).mp hself
    obtain ⟨here, hhere, hposition, -⟩ :=
      (World.mem_sightings_iff hsound).mp (List.mem_of_getElem? hs)
    have hcenter : v.grid.points[self]? = some s.position := by
      rw [h.filed.getElem?_points, List.getElem?_map, hs]
      rfl
    simp only [Grid.overflows_iff hcenter, h.filed.reach?_eq_some_iff, hhere, Option.some.injEq,
      exists_eq_left', ← hposition, World.positions]

/-- No window reaches too far if all agents are near the axes. -/
theorem not_windowOverflows {radius : α}
    (hcells : ∀ p ∈ w.positions, Grid.IsNear (Grid.cellOf w.settings.cellSize p))
    (hradius : Scalar.zero ≤ radius) : ¬ w.WindowOverflows a radius := fun hover =>
  Bool.false_ne_true ((h.overflows_eq_false hcells a radius).symm.trans
    ((h.overflows_iff hsound).mpr ⟨hradius, hover⟩))

theorem nodup_neighbors (a : AgentId) (radius : α) : (v.neighbors a radius).Nodup := by
  unfold neighbors
  split
  · exact List.nodup_nil
  · next self _ =>
    rw [AgentId.nodup_sort_iff]
    have hfound := h.filed.pairwise_neighborsVia (List.Perm.refl _) self radius
    refine List.pairwise_filterMap.mpr (hfound.imp ?_)
    rintro ⟨i, d⟩ ⟨j, e⟩ hlt b hb c hc rfl
    simp only [h.sightings_eq, Option.map_eq_some_iff] at hb hc
    obtain ⟨s, hs, hsid⟩ := hb
    obtain ⟨t, ht, htid⟩ := hc
    exact Nat.ne_of_lt hlt (World.place_unique hsound hs ht (hsid.trans htid.symm))

end Sound

end Shows

end View

end Flock
