import Flock.Proofs.Grid.Measured
import Flock.Proofs.World.Round
import Flock.Proofs.World.View

/-!
# Orders that do not matter

The agents of a world are kept in the order in which they step, and a grid lists its
buckets in the order in which they happen to be stored. Neither can be told from what a
view answers: handles are listed in the order of slots, neighbours are found by their
distances, and whether a search has a window depends on how many cells there are points in
(`View.Shows.surroundingsVia_eq_surroundings`).

So agents do the same in their steps whatever these orders are. What is left of the order
of stepping is how random words are dealt out, and if no step draws any, a tick comes to
the same in every order (`World.step_in_any_order`).
-/

namespace Flock

variable {α : Type} [Scalar α]

namespace Roster

variable {β : Type} {r next : Roster β}

/-- What is found under a handle does not depend on the order of the members. -/
theorem find?_eq_of_perm (h : r.Sound) (hnext : next.Sound) (hperm : r.entries.Perm next.entries)
    (id : AgentId) : r.find? id = next.find? id := by
  refine Option.ext fun member => ?_
  rw [find?_eq_some_iff h, find?_eq_some_iff hnext, hperm.mem_iff]

end Roster

namespace Grid

variable {cellSize radius : α} {points : List (Point α)} {g other : Grid α}

theorem Filed.neighborsVia_eq (h : g.Filed cellSize points) {occupied : List (List Nat)}
    (hoccupied : occupied.Perm g.buckets.values) (self : Nat) (radius : α) :
    g.neighborsVia occupied self radius = g.neighbors self radius :=
  eq_of_pairwise_of_mem_iff (h.pairwise_neighborsVia hoccupied self radius)
    (h.pairwise_neighborsVia (List.Perm.refl _) self radius) fun _ =>
      (h.mem_neighborsVia_iff hoccupied).trans (h.mem_neighborsVia_iff (List.Perm.refl _)).symm

theorem covers_congr (hcell : g.cellSize = other.cellSize)
    (hsize : g.buckets.size = other.buckets.size) {center : Point α} {cell : Cell} :
    g.Covers center radius cell ↔ other.Covers center radius cell := by
  simp only [Covers, reach?, hcell, hsize]

end Grid

namespace View

/-- The agents near another one, as found when the occupied cells of the grid are listed in
a given order. -/
def neighborsVia (v : View α) (occupied : List (List Nat)) (id : AgentId) (radius : α) :
    List AgentId :=
  match v.sightings.findIdx? (·.id = id) with
  | none => []
  | some self =>
    AgentId.sort ((v.grid.neighborsVia occupied self radius).filterMap fun found =>
      v.sightings[found.1]?.map (·.id))

/-- The answers that agents get when the occupied cells are listed in a given order. -/
def surroundingsVia (v : View α) (occupied : List (List Nat)) : Surroundings α :=
  { v.surroundings with neighbors := v.neighborsVia occupied }

theorem neighbors_eq_sort (v : View α) (id : AgentId) (radius : α) :
    ∃ ids, v.neighbors id radius = AgentId.sort ids := by
  unfold neighbors
  split
  · exact ⟨[], List.mergeSort_nil.symm⟩
  · exact ⟨_, rfl⟩

theorem Shows.surroundingsVia_eq_surroundings {v : View α} {w : World α} (h : v.Shows w)
    {occupied : List (List Nat)}
    (hoccupied : occupied.Perm v.grid.buckets.values) :
    v.surroundingsVia occupied = v.surroundings := by
  have hneighbors : v.neighborsVia occupied = v.neighbors := by
    funext id radius
    rw [neighborsVia, neighbors]
    cases v.sightings.findIdx? (·.id = id) with
    | none => rfl
    | some self => simp only [h.filed.neighborsVia_eq hoccupied]
  rw [surroundingsVia, hneighbors]
  rfl

end View

namespace World

variable {w next : World α}

/-- Two worlds have the same agents under the same handles, in orders that may differ, and
the same regions and settings. Random words, and the slots and serial numbers that are
still to be given out, may be others. -/
structure Reordered (w next : World α) : Prop where
  settings_eq : w.settings = next.settings
  regions_eq : w.regions = next.regions
  perm : w.agents.entries.Perm next.agents.entries

namespace Reordered

variable (h : w.Reordered next)

include h

omit [Scalar α] in
theorem perm_sightings : w.sightings.Perm next.sightings := h.perm.map _

omit [Scalar α] in
theorem agent?_eq (hsound : w.agents.Sound) (hnext : next.agents.Sound) (id : AgentId) :
    w.agent? id = next.agent? id := Roster.find?_eq_of_perm hsound hnext h.perm id

theorem covers_iff {v other : View α} (hv : v.Shows w) (hother : other.Shows next)
    {center : Point α} {radius : α} {cell : Cell} :
    v.grid.Covers center radius cell ↔ other.grid.Covers center radius cell := by
  have hcell : v.grid.cellSize = other.grid.cellSize := by
    rw [hv.cellSize_eq, hother.cellSize_eq, h.settings_eq]
  have hcells : (w.sightings.map (·.position)).Perm (next.sightings.map (·.position)) :=
    h.perm_sightings.map _
  refine Grid.covers_congr hcell ?_
  rw [hv.filed.size_buckets, hother.filed.size_buckets, hcell]
  exact ((hcells.map _).dedup).length_eq

/-- What agents can ask is answered in the same way. -/
theorem surroundings_eq {v other : View α} (hv : v.Shows w) (hother : other.Shows next)
    (hsound : w.agents.Sound) (hnext : next.agents.Sound) : v.surroundings = other.surroundings := by
  have hcell : v.grid.cellSize = other.grid.cellSize := by
    rw [hv.cellSize_eq, hother.cellSize_eq, h.settings_eq]
  have hneighbors : v.neighbors = other.neighbors := by
    funext a radius
    have hperm : (v.neighbors a radius).Perm (other.neighbors a radius) := by
      refine (List.perm_ext_iff_of_nodup (hv.nodup_neighbors hsound a radius)
        (hother.nodup_neighbors hnext a radius)).mpr fun b => ?_
      simp only [hv.mem_neighbors_iff_agents hsound, hother.mem_neighbors_iff_agents hnext,
        h.agent?_eq hsound hnext, h.covers_iff hv hother, hcell]
    -- both lists are sorted, so they are the same
    obtain ⟨ids, hids⟩ := v.neighbors_eq_sort a radius
    obtain ⟨others, hothers⟩ := other.neighbors_eq_sort a radius
    rw [hids, hothers] at hperm ⊢
    exact AgentId.sort_eq_of_perm
      ((AgentId.sort_perm ids).symm.trans (hperm.trans (AgentId.sort_perm others)))
  have hlabelled : v.labelled = other.labelled := by
    funext a label
    rw [View.labelled, View.labelled, hv.sightings_eq, hother.sightings_eq]
    exact AgentId.sort_eq_of_perm ((h.perm_sightings.filter _).map _)
  have hposition : v.position? = other.position? := by
    funext a
    rw [hv.position?_eq, hother.position?_eq, h.agent?_eq hsound hnext]
  simp only [View.surroundings, hneighbors, hlabelled, hposition, hv.regions_eq,
    hother.regions_eq, h.regions_eq]

variable [Circular α] {view : Surroundings α}

omit [Scalar α] [Circular α] in
theorem forall_mem_iff {p : AgentId × Agent α → Prop} :
    (∀ e ∈ w.agents.entries, p e) ↔ ∀ e ∈ next.agents.entries, p e :=
  forall_congr' fun _ => by rw [h.perm.mem_iff]

theorem isOk_stepAgainst_iff :
    (∃ activity, (w.stepAgainst view).2 = .ok activity) ↔
      ∃ activity, (next.stepAgainst view).2 = .ok activity := by
  rw [World.isOk_stepAgainst_iff, World.isOk_stepAgainst_iff, h.forall_mem_iff]

/-- If no agent draws words, a round comes to the same in either order: an agent that
fails then does so for want of a heading, whichever of them is the first. -/
theorem stepAgainst_of_draws_eq_zero
    (hdraws : ∀ e ∈ w.agents.entries, e.2.draws view.inRegion = 0) :
    (w.stepAgainst view).2 = (next.stepAgainst view).2 ∧
      (w.stepAgainst view).1.Reordered (next.stepAgainst view).1 := by
  have hnextDraws := h.forall_mem_iff.mp hdraws
  by_cases hfine : ∀ e ∈ w.agents.entries, e.2.fault? view.inRegion = none
  · have hnextFine := h.forall_mem_iff.mp hfine
    rw [stepAgainst_of_fault_eq_none w.words (List.findSome?_eq_none_iff.mpr hfine),
      stepAgainst_of_fault_eq_none w.words (List.findSome?_eq_none_iff.mpr hnextFine)]
    refine ⟨congrArg Except.ok (Staging.record_perm h.perm view w.words .none), h.settings_eq,
      h.regions_eq, ?_⟩
    simp only [Staging.copies_of_draws_eq_zero hfine hdraws _ w.words,
      Staging.copies_of_draws_eq_zero hnextFine hnextDraws _ w.words]
    exact h.perm.map _
  · have hnextFine := mt h.forall_mem_iff.mpr hfine
    rw [stepAgainst_eq_noHeading hdraws hfine, stepAgainst_eq_noHeading hnextDraws hnextFine]
    exact ⟨rfl, h⟩

end Reordered

/-- The tick of a world, with the buckets of a grid listed in the order that `list` puts
them in. -/
def stepAgentsVia [Circular α] (list : Grid α → List (List Nat)) (w : World α) :
    World α × Except (Fault α) Activity :=
  match w.view with
  | .error fault => (w, .error fault)
  | .ok v => w.stepAgainst (v.surroundingsVia (list v.grid))

/-- The order in which buckets are stored is one of those in which they can be listed. -/
theorem stepAgents_eq_via [Circular α] (w : World α) :
    w.stepAgents = w.stepAgentsVia fun g => g.buckets.values := by
  cases hview : w.view with
  | error fault => simp only [stepAgents, stepAgentsVia, hview]
  | ok v =>
      simp only [stepAgents_of_view hview, stepAgentsVia, hview]
      rfl

/-- Neither the order of the agents nor the order in which the buckets of a grid are listed
can be told from what a view answers, nor from what an agent does in its step. A tick
succeeds in every order or in none, and if no agent draws words in its step, it leads to
the same agents under the same handles. -/
theorem step_in_any_order [Circular α] {w next : World α} (h : w.Reordered next)
    (hsound : w.agents.Sound) (hnext : next.agents.Sound)
    (hcell : Scalar.isFinitePos w.settings.cellSize) (list listNext : Grid α → List (List Nat))
    (hlist : ∀ g, (list g).Perm g.buckets.values)
    (hlistNext : ∀ g, (listNext g).Perm g.buckets.values) :
    (∃ v other, w.view = .ok v ∧ next.view = .ok other ∧
      (∀ id radius, v.neighborsVia (list v.grid) id radius =
        other.neighborsVia (listNext other.grid) id radius) ∧
      (∀ id label, v.labelled id label = other.labelled id label) ∧
      (∀ id, v.position? id = other.position? id) ∧
      (∀ p label, Region.anyContains v.regions p label =
        Region.anyContains other.regions p label) ∧
      ∀ (agent : Agent α) (id : AgentId) (words : WordStream),
        agent.step id (v.surroundingsVia (list v.grid)) words =
          agent.step id (other.surroundingsVia (listNext other.grid)) words) ∧
    ((∃ activity, (w.stepAgentsVia list).2 = .ok activity) ↔
      ∃ activity, (next.stepAgentsVia listNext).2 = .ok activity) ∧
    ((∀ e ∈ w.agents.entries, e.2.draws w.inRegion = 0) →
      (w.stepAgentsVia list).2 = (next.stepAgentsVia listNext).2 ∧
      (w.stepAgentsVia list).1.Reordered (next.stepAgentsVia listNext).1) := by
  obtain ⟨v, hview, hv⟩ := View.exists_shows hcell
  obtain ⟨other, hother, hothers⟩ := View.exists_shows (h.settings_eq ▸ hcell)
  have hsame : v.surroundingsVia (list v.grid) = other.surroundingsVia (listNext other.grid) := by
    rw [hv.surroundingsVia_eq_surroundings (hlist _),
      hothers.surroundingsVia_eq_surroundings (hlistNext _), h.surroundings_eq hv hothers hsound hnext]
  have hinRegion : (v.surroundingsVia (list v.grid)).inRegion = w.inRegion := hv.inRegion_eq
  refine ⟨⟨v, other, hview, hother, fun id radius => ?_, fun id label => ?_, fun id => ?_,
    fun p label => ?_, fun agent id words => ?_⟩, ?_, fun hdraws => ?_⟩
  · exact congrFun (congrFun (congrArg Surroundings.neighbors hsame) id) radius
  · exact congrFun (congrFun (congrArg Surroundings.labelled hsame) id) label
  · exact congrFun (congrArg Surroundings.position? hsame) id
  · exact congrFun (congrFun (congrArg Surroundings.inRegion hsame) p) label
  · rw [hsame]
  · simp only [stepAgentsVia, hview, hother, ← hsame]
    exact h.isOk_stepAgainst_iff
  · simp only [stepAgentsVia, hview, hother, ← hsame]
    exact h.stepAgainst_of_draws_eq_zero (by rwa [hinRegion])

/-- An agent that is to turn. -/
def turner : AgentId × Agent Float :=
  (⟨1, 0⟩, ⟨.atPoint ⟨0, 0⟩, some (.start ⟨#[.action (.move ⟨9, 0⟩ 3)], [0]⟩)⟩)

/-- An agent that is to broadcast. -/
def caller : AgentId × Agent Float :=
  (⟨2, 1⟩, ⟨.atPoint ⟨3, 4⟩, some (.start ⟨#[.action (.signal "x")], [0]⟩)⟩)

def turnerFirst : World Float := ⟨.default, .ofSeed 3, ⟨[turner, caller], [], 3, 2⟩, []⟩

def callerFirst : World Float := ⟨.default, .ofSeed 4, ⟨[caller, turner], [], 3, 2⟩, []⟩

/-- Each of the two agents may be the first to step, and the buckets may be listed from
their end. -/
theorem step_in_any_order_swapped :
    let stored (g : Grid Float) := g.buckets.values
    let reversed (g : Grid Float) := g.buckets.values.reverse
    turnerFirst.Reordered callerFirst ∧
    (∃ v other, turnerFirst.view = .ok v ∧ callerFirst.view = .ok other ∧
      v.neighborsVia (stored v.grid) ⟨1, 0⟩ 5 = other.neighborsVia (reversed other.grid) ⟨1, 0⟩ 5) ∧
    (callerFirst.stepAgentsVia reversed).2 = .ok ⟨2, 0, 2⟩ ∧
    (turnerFirst.stepAgentsVia stored).1.Reordered (callerFirst.stepAgentsVia reversed).1 := by
  intro stored reversed
  have hreordered : turnerFirst.Reordered callerFirst := ⟨rfl, rfl, .swap caller turner []⟩
  have hcell : Scalar.isFinitePos turnerFirst.settings.cellSize := by decide +kernel
  have hdraws : ∀ e ∈ turnerFirst.agents.entries, e.2.draws turnerFirst.inRegion = 0 := by
    decide +kernel
  obtain ⟨⟨v, other, hview, hother, hneighbors, -⟩, -, hsame⟩ :=
    step_in_any_order hreordered ⟨by decide, by decide⟩ ⟨by decide, by decide⟩ hcell stored reversed
      (fun _ => List.Perm.refl _) fun _ => List.reverse_perm _
  have hstepped : turnerFirst.stepAgents.2 = .ok ⟨2, 0, 2⟩ := rfl
  rw [stepAgents_eq_via] at hstepped
  exact ⟨hreordered, ⟨v, other, hview, hother, hneighbors _ _⟩,
    (hsame hdraws).1.symm.trans hstepped, (hsame hdraws).2⟩

end World

end Flock
