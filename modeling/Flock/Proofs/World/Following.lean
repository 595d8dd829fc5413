import Flock.Proofs.Agent.Effect
import Flock.Proofs.World.Exact
import Flock.Proofs.World.Order
import Flock.Proofs.World.Slots

/-!
# Whom a following agent follows

An agent that follows goes after its mates (`World.mates`): the agents that the view from the
start of the tick finds within the radius, and that had its label then. It turns to the middle
of where they were, or if it has none, to a point drawn at random, and moves one step
(`World.follows_mates_of_tick_start`). What others have done in the tick by the time of its
turn does not enter into this; all it gets from them is the words that they leave.
-/

namespace Flock

variable {α : Type} [Scalar α]

namespace Point

/-- The sum of points divided by their number. -/
def mean (points : List (Point α)) : Point α :=
  ⟨(sum points).x / Scalar.ofInt points.length, (sum points).y / Scalar.ofInt points.length⟩

theorem centroid_of_ne_nil {points : List (Point α)} (h : points ≠ []) :
    centroid points = some (mean points) := by
  rw [centroid, List.isEmpty_eq_false_iff.mpr h]
  rfl

end Point

namespace World

variable {w : World α} {v : View α} {id other : AgentId} {there : Agent α} {label : String}
  {radius : α}

/-- The agents that a view finds near an agent and that have a label in the world, in the order
of slots. -/
def mates (w : World α) (v : View α) (id : AgentId) (label : String) (radius : α) :
    List (AgentId × Agent α) :=
  (v.neighbors id radius).filterMap fun other =>
    ((w.agent? other).filter (·.body.label = label)).map (other, ·)

theorem mem_mates_iff :
    (other, there) ∈ w.mates v id label radius ↔
      other ∈ v.neighbors id radius ∧ w.agent? other = some there ∧ there.body.label = label := by
  simp only [mates, List.mem_filterMap, Option.map_eq_some_iff, Option.filter_eq_some_iff,
    decide_eq_true_eq, Prod.mk.injEq]
  constructor
  · rintro ⟨other, hnear, there, hagent, rfl, rfl⟩
    exact ⟨hnear, hagent⟩
  · rintro ⟨hnear, hagent⟩
    exact ⟨other, hnear, there, hagent, rfl, rfl⟩

end World

namespace View.Shows

variable {v : View α} {w : World α} {id : AgentId} {label : String} {radius : α}

/-- The peers of a body with its label are the mates. -/
theorem peers_eq [Circular α] (h : v.Shows w) (hsound : w.agents.Sound) (b : Body α)
    (id : AgentId) (radius : α) :
    b.peers id v.surroundings radius = (w.mates v id b.label radius).map (·.1) := by
  rw [World.mates, List.map_filterMap, Body.peers, ← List.filterMap_eq_filter]
  refine List.filterMap_congr fun other hother => ?_
  obtain ⟨-, hne, -, there, -, hthere, -⟩ := (h.mem_neighbors_iff_agents hsound).mp hother
  have hlabelled : other ∈ v.surroundings.labelled id b.label ↔ there.body.label = b.label := by
    change other ∈ v.labelled id b.label ↔ there.body.label = b.label
    simp [h.mem_labelled_iff hsound, hne, hthere]
  by_cases hlabel : there.body.label = b.label <;>
    simp [Option.guard, hthere, hlabelled, hlabel, Option.filter_some]

/-- All mates have a position in the view. -/
theorem followTarget_eq [Circular α] (h : v.Shows w) (hsound : w.agents.Sound) (b : Body α)
    (id : AgentId) (radius : α) (drawn : Point α) :
    b.followTarget id v.surroundings radius drawn =
      (Point.centroid ((w.mates v id b.label radius).map (·.2.body.position))).getD drawn := by
  rw [Body.followTarget, h.peers_eq hsound, List.filterMap_map, ← List.filterMap_eq_map]
  congr 2
  refine List.filterMap_congr fun e he => ?_
  obtain ⟨-, hagent, -⟩ := World.mem_mates_iff.mp he
  change v.position? e.1 = some e.2.body.position
  rw [h.position?_eq, hagent]
  rfl

/-- Neighbours are listed in strict order of their slots. -/
theorem pairwise_neighbors (h : v.Shows w) (hsound : w.agents.Sound) (hapart : w.agents.Apart)
    (id : AgentId) (radius : α) : (v.neighbors id radius).Pairwise (·.slot < ·.slot) := by
  obtain ⟨ids, hids⟩ := v.neighbors_eq_sort id radius
  have hnodup := h.nodup_neighbors hsound id radius
  rw [hids] at hnodup ⊢
  refine hapart.pairwise_slot_lt (fun other hother => ?_) (AgentId.nodup_sort_iff.mp hnodup)
  have hnear : other ∈ v.neighbors id radius := by rwa [hids, AgentId.mem_sort_iff]
  obtain ⟨-, -, here, there, -, hthere, -⟩ := (h.mem_neighbors_iff_agents hsound).mp hnear
  exact Roster.isSome_find?_iff.mp (Option.isSome_of_eq_some hthere)

theorem pairwise_mates (h : v.Shows w) (hsound : w.agents.Sound) (hapart : w.agents.Apart)
    (id : AgentId) (label : String) (radius : α) :
    (w.mates v id label radius).Pairwise (·.1.slot < ·.1.slot) := by
  refine List.pairwise_filterMap.mpr ((h.pairwise_neighbors hsound hapart id radius).imp ?_)
  intro a b hlt e he f hf
  obtain ⟨-, -, rfl⟩ := Option.map_eq_some_iff.mp he
  obtain ⟨-, -, rfl⟩ := Option.map_eq_some_iff.mp hf
  exact hlt

end View.Shows

namespace Body

variable [Circular α] {b b' : Body α} {id : AgentId} {view : Surroundings α} {radius speed : α}
  {words rest : WordStream}

/-- What following comes to that succeeds. -/
theorem follow_eq_ok (h : b.follow id view radius speed words = .ok (b', rest)) :
    ∃ dx dy between, words.sampleBetween (-radius) radius = .ok (dx, between) ∧
      between.sampleBetween (-radius) radius = .ok (dy, rest) ∧
      b' = ({ b with speed } : Body α).stride
        (({ b with speed } : Body α).followTarget id view radius (b.position.offset dx dy)) := by
  obtain ⟨⟨dx, between⟩, hdx, h⟩ := bind_eq_ok_iff.mp h
  obtain ⟨⟨dy, after⟩, hdy, h⟩ := bind_eq_ok_iff.mp h
  obtain ⟨rfl, rfl⟩ := Prod.mk.inj (Except.ok.inj h)
  exact ⟨dx, dy, between, hdx, hdy, rfl⟩

end Body

/-- The same in terms of the mates that a view shows. -/
theorem View.Shows.follow_eq_ok [Circular α] {v : View α} {w : World α} (h : v.Shows w)
    (hsound : w.agents.Sound) {b b' : Body α} {id : AgentId} {radius speed : α}
    {words rest : WordStream}
    (hfollow : b.follow id v.surroundings radius speed words = .ok (b', rest)) :
    let mates := w.mates v id b.label radius
    ∃ dx dy between target,
      words.sampleBetween (-radius) radius = .ok (dx, between) ∧
      between.sampleBetween (-radius) radius = .ok (dy, rest) ∧
      (mates = [] → target = b.position.offset dx dy) ∧
      (mates ≠ [] → target = Point.mean (mates.map (·.2.body.position))) ∧
      b' = ({ b with speed } : Body α).stride target := by
  intro mates
  obtain ⟨dx, dy, between, hdx, hdy, hbody⟩ := Body.follow_eq_ok hfollow
  rw [h.followTarget_eq hsound] at hbody
  refine ⟨dx, dy, between, _, hdx, hdy, fun hmates => ?_, fun hmates => ?_, hbody⟩
  · change (Point.centroid (mates.map _)).getD _ = _
    rw [hmates]
    rfl
  · change (Point.centroid (mates.map _)).getD _ = _
    rw [Point.centroid_of_ne_nil (by simpa using hmates)]
    rfl

namespace World

/-- To a view two worlds are the same: their agents are at the same places, in the same order
and with the same labels, whatever their programs are. -/
structure LooksLike (w other : World α) : Prop where
  settings_eq : other.settings = w.settings
  regions_eq : other.regions = w.regions
  sightings_eq : other.sightings = w.sightings

theorem LooksLike.view_eq {w other : World α} (h : w.LooksLike other) : other.view = w.view := by
  rw [view, view, h.settings_eq, h.regions_eq, h.sightings_eq]

variable [Circular α] {w : World α} {activity : Activity}

/-- What becomes of an agent in a tick that succeeds. -/
theorem getElem?_stepAgents {v : View α} (hview : w.view = .ok v)
    (h : w.stepAgents.2 = .ok activity) {i : Nat} {id : AgentId} {agent : Agent α}
    (hentry : w.agents.entries[i]? = some (id, agent)) :
    let words := w.words.drop (Staging.drawn w.inRegion (w.agents.entries.take i))
    ∃ next report rest, agent.step id v.surroundings words = (next, .ok (report, rest)) ∧
      w.stepAgents.1.agents.entries[i]? = some (id, next) := by
  intro words
  obtain ⟨v', hview', hfault, hnext, -⟩ := stepAgents_eq_ok h w.words
  obtain rfl := Except.ok.inj (hview.symm.trans hview')
  have hagent : agent.fault? v.surroundings.inRegion = none :=
    List.findSome?_eq_none_iff.mp hfault _ (List.mem_of_getElem? hentry)
  obtain ⟨next, report, hstep, -, -⟩ := Agent.step_of_fault?_eq_none hagent id
  refine ⟨next words, report, _, hstep words, ?_⟩
  rw [hnext, Staging.getElem?_copies, hentry, (View.shows_of_view hview).inRegion_eq,
    Option.map_some, hstep]

/-- What following comes to inside a tick that succeeds. The agents followed are those that the
view from the start of the tick finds within the radius and that had, at the start of the tick,
the label that the follower had; not the follower itself, and whatever label the action names.
The two samples for a random point are taken in any case, from the words that the agents in front
have left. The follower is turned, from where it was, to the mean of the places where its mates
were at the start of the tick, summed up in the order of their slots, or to the random point if
it has none; then it is displaced once, at the speed that the action names. With other programs
the others may move and signal as they like in the same tick: as long as they leave the follower
the same words, it comes to the same. -/
theorem follows_mates_of_tick_start (hw : Reachable w) (h : w.stepAgents.2 = .ok activity) :
    ∃ v, w.view = .ok v ∧ ∀ (i : Nat) (id : AgentId) (agent : Agent α),
      w.agents.entries[i]? = some (id, agent) →
      let words := w.words.drop (Staging.drawn w.inRegion (w.agents.entries.take i))
      ∃ next report rest, agent.step id v.surroundings words = (next, .ok (report, rest)) ∧
        w.stepAgents.1.agents.entries[i]? = some (id, next) ∧
        (∀ node label radius speed,
          report.bind (·.executed) = some (node, .follow label radius speed) →
          let mates := w.mates v id agent.body.label radius
          (∀ other there, (other, there) ∈ mates ↔ other ∈ v.neighbors id radius ∧
            w.agent? other = some there ∧ there.body.label = agent.body.label) ∧
          mates.Pairwise (·.1.slot < ·.1.slot) ∧ (∀ mate ∈ mates, mate.1 ≠ id) ∧
          ∃ dx dy between target,
            words.sampleBetween (-radius) radius = .ok (dx, between) ∧
            between.sampleBetween (-radius) radius = .ok (dy, rest) ∧
            (mates = [] → target = agent.body.position.offset dx dy) ∧
            (mates ≠ [] → target = Point.mean (mates.map (·.2.body.position))) ∧
            let heading := Heading.towards agent.body.position target
            next.body = ⟨agent.body.position.offset (heading.dx * speed) (heading.dy * speed),
              some heading, speed, agent.body.label⟩) ∧
        ∀ (other : World α) (done : Activity), w.LooksLike other →
          other.agents.entries[i]? = some (id, agent) →
          other.words.drop (Staging.drawn other.inRegion (other.agents.entries.take i)) = words →
          other.stepAgents.2 = .ok done →
          other.stepAgents.1.agents.entries[i]? = some (id, next) := by
  obtain ⟨v, hview, -⟩ := stepAgents_eq_ok h w.words
  have hshows := View.shows_of_view hview
  have hsound := hw.sound
  refine ⟨v, hview, ?_⟩
  intro i id agent hentry words
  obtain ⟨next, report, rest, hstep, hnext⟩ := getElem?_stepAgents hview h hentry
  refine ⟨next, report, rest, hstep, hnext, ?_, ?_⟩
  · intro node label radius speed hexecuted mates
    have hperform : agent.body.follow id v.surroundings radius speed words = .ok (next.body, rest) :=
      Agent.perform_of_step hstep hexecuted (by simp)
    refine ⟨fun other there => mem_mates_iff, hshows.pairwise_mates hsound hw.apart id _ radius,
      fun mate hmate => ?_, hshows.follow_eq_ok hsound hperform⟩
    obtain ⟨hnear, -⟩ := mem_mates_iff.mp hmate
    exact ((hshows.mem_neighbors_iff_agents hsound).mp hnear).2.1
  · intro other done hlike hentry' hwords hdone
    obtain ⟨next', report', rest', hstep', hnext'⟩ :=
      getElem?_stepAgents (hlike.view_eq.trans hview) hdone hentry'
    rw [hwords, hstep] at hstep'
    obtain ⟨rfl, -⟩ := Prod.mk.inj hstep'
    exact hnext'

/-- An agent that is to follow for one tick. The label that the action names is not its own. -/
def follower : Agent ℚ :=
  (Agent.atPoint ⟨0, 0⟩ "T").bind ⟨#[.action (.follow "x" 5 2)], [0]⟩

/-- Of those that stand in front of the follower, two have its label, one of which is about to move
and the other one to signal. The third has the label that is named. -/
def crowd : World ℚ :=
  let placed := (((World.add ⟨.default, .ofSeed 3, .empty, []⟩ (.atPoint ⟨4, 3⟩ "T")).add
    (.atPoint ⟨4, -3⟩ "T")).add (.atPoint ⟨1, 0⟩ "x")).add (.atPoint ⟨0, 0⟩ "T")
  ((placed.updateAgent ⟨1, 0⟩ (·.bind ⟨#[.action (.wander ⟨9, 3⟩ ⟨9, 3⟩ 5)], [0]⟩)).updateAgent
    ⟨2, 1⟩ (·.bind ⟨#[.action (.signal "x")], [0]⟩)).updateAgent ⟨4, 3⟩ fun _ => follower

theorem reachable_crowd [Circular ℚ] : Reachable crowd := by
  have hstart : Reachable (⟨.default, .ofSeed 3, .empty, []⟩ : World ℚ) :=
    @Reachable.created ℚ _ _ .default 3 _ rfl
  exact (hstart.changed (.spawned (p := ⟨4, 3⟩) rfl)).changed (.spawned (p := ⟨4, -3⟩) rfl)
    |>.changed (.spawned (p := ⟨1, 0⟩) rfl) |>.changed (.spawned (p := ⟨0, 0⟩) rfl)
    |>.changed (.updated _ _ _) |>.changed (.updated _ _ _) |>.changed (.updated _ _ _)

theorem mates_crowd [Circular ℚ] {v : View ℚ} (hview : crowd.view = .ok v) :
    crowd.mates v ⟨4, 3⟩ "T" 5 = crowd.agents.entries.take 2 := by
  have hsound := reachable_crowd.sound
  have hshows := View.shows_of_view hview
  have hcell := Scalar.isFinitePos_rat_iff.mp reachable_crowd.isFinitePos_cellSize
  have hslots := hshows.pairwise_mates hsound reachable_crowd.apart ⟨4, 3⟩ "T" 5
  have hfits : ¬ crowd.WindowOverflows ⟨4, 3⟩ 5 :=
    hshows.not_windowOverflows hsound (by decide +kernel) (by decide +kernel)
  refine Grid.eq_of_pairwise_of_mem_iff hslots (by decide +kernel) fun ⟨other, there⟩ => ?_
  rw [mem_mates_iff, hshows.mem_neighbors_rat_iff hsound hcell (by norm_num) hfits]
  constructor
  · rintro ⟨⟨hne, -⟩, hthere, hlabel⟩
    have hmates : ∀ e ∈ crowd.agents.entries, e.1 ≠ ⟨4, 3⟩ → e.2.body.label = "T" →
        e ∈ crowd.agents.entries.take 2 := by
      decide +kernel
    exact hmates _ ((Roster.find?_eq_some_iff hsound).mp hthere) hne hlabel
  · intro hmem
    have hmates : ∀ e ∈ crowd.agents.entries.take 2, e.1 ≠ ⟨4, 3⟩ ∧ e.2.body.label = "T" ∧
        e.2.body.position.distSq ⟨0, 0⟩ ≤ 5 ^ 2 := by
      decide +kernel
    obtain ⟨hne, hlabel, hdist⟩ := hmates _ hmem
    have hthere := (Roster.find?_eq_some_iff hsound).mpr (List.mem_of_mem_take hmem)
    exact ⟨⟨hne, _, there, rfl, hthere, hdist⟩, hthere, hlabel⟩

/-- The follower turns to the middle of where its two mates stood when the tick began, and comes
nearer to it by its speed. -/
theorem follows_mates_of_tick_start_crowd :
    letI := Circular.quarterTurns
    ∃ next, crowd.stepAgents.1.agents.entries[3]? = some (⟨4, 3⟩, next) ∧
      next.body = ⟨⟨2, 0⟩, some ⟨1, 0⟩, 2, "T"⟩ := by
  let _ := Circular.quarterTurns
  obtain ⟨activity, hactivity⟩ : ∃ activity, crowd.stepAgents.2 = .ok activity :=
    ⟨⟨3, 0, 3⟩, by decide +kernel⟩
  obtain ⟨v, hview, hagents⟩ := follows_mates_of_tick_start reachable_crowd hactivity
  obtain ⟨next, report, rest, hstep, hnext, hfollow, -⟩ := hagents 3 ⟨4, 3⟩ follower rfl
  have hfault : follower.fault? v.surroundings.inRegion = none := rfl
  have hdue : follower.due? v.surroundings.inRegion = some (0, .follow "x" 5 2) := rfl
  obtain ⟨_, reported, hsteps, hexecuted, -⟩ := Agent.step_of_fault?_eq_none hfault ⟨4, 3⟩
  obtain rfl : report = reported := by
    have hsame := hstep.symm.trans (hsteps _)
    simp only [Prod.mk.injEq, Except.ok.injEq] at hsame
    exact hsame.2.1
  obtain ⟨-, -, -, dx, dy, between, target, -, -, -, htarget, hbody⟩ :=
    hfollow 0 "x" 5 2 (hexecuted.trans hdue)
  have hmates : crowd.mates v ⟨4, 3⟩ follower.body.label 5 = crowd.agents.entries.take 2 :=
    mates_crowd hview
  rw [hmates] at htarget
  have hmiddle : target = ⟨4, 0⟩ := (htarget (by decide +kernel)).trans (by decide +kernel)
  refine ⟨next, hnext, hbody.trans ?_⟩
  rw [hmiddle]
  decide +kernel

end World

end Flock
