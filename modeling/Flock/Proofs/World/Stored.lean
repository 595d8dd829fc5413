import Flock.Proofs.World.Request
import Flock.Proofs.World.Store

/-!
# Worlds with their agents in slots

`StoredWorld` is a world whose agents are kept in a store, in slots and in a list of handles.
It answers every request as the world does that it stands for, and stands for what becomes
of that (`StoredWorld.performAll_eq`).
-/

namespace Flock

/-- A world whose agents are kept in a store. -/
structure StoredWorld (α : Type) where
  settings : Settings α
  words : WordStream
  agents : Store (Agent α)
  regions : List (Region α)

namespace StoredWorld

variable {α : Type}

/-- A world without agents and regions. -/
def new (settings : Settings α) (words : WordStream) : StoredWorld α :=
  ⟨settings, words, .empty, []⟩

/-- The world that it stands for. -/
def world (s : StoredWorld α) : World α := ⟨s.settings, s.words, s.agents.roster, s.regions⟩

variable [Scalar α]

def sightings (s : StoredWorld α) : List (Sighting α) :=
  s.agents.entries.map fun e => ⟨e.1, e.2.body.position, e.2.body.label⟩

variable [Circular α]

/-- The world after every agent has stepped once. The copies that have stepped are put in
the place of the agents one after the other. -/
def step (s : StoredWorld α) : StoredWorld α × World.Reply α :=
  match View.capture s.settings.cellSize s.regions s.sightings with
  | .error fault => (s, .refused fault)
  | .ok view =>
    match (Staging.start s.world).stepAll view.surroundings s.agents.entries with
    | (_, some fault) => (s, .refused fault)
    | (round, none) =>
      ({ s with agents := s.agents.assign round.stepped.reverse, words := round.words },
        .stepped round.activity)

/-- The world after a request, and what comes back. -/
def perform (s : StoredWorld α) : World.Request α → StoredWorld α × World.Reply α
  | .spawn p label =>
    match p.check with
    | .ok () =>
      ({ s with agents := s.agents.insert (.atPoint p label) }, .arrived s.agents.nextId)
    | .error fault => (s, .refused fault)
  | .spawnRandom =>
    match s.world.randomPlace with
    | .ok (p, words) =>
      ({ s with agents := s.agents.insert (.atPoint p ""), words := words },
        .arrived s.agents.nextId)
    | .error fault => (s, .refused fault)
  | .remove id =>
    match s.agents.get? id with
    | some agent => ({ s with agents := s.agents.remove id }, .left id agent)
    | none => (s, .done)
  | .update id change => ({ s with agents := s.agents.update id change }, .done)
  | .install program => ({ s with agents := s.agents.updateAll (·.bind program) }, .done)
  | .bind id program =>
    match s.agents.get? id with
    | some _ => ({ s with agents := s.agents.update id (·.bind program) }, .done)
    | none => (s, .refused .unknownAgent)
  | .addRegion region => ({ s with regions := s.regions ++ [region] }, .done)
  | .draw words => ({ s with words := words }, .done)
  | .step => s.step

/-- The world after a list of requests, and what comes back of each of them. -/
def performAll (s : StoredWorld α) :
    List (World.Request α) → StoredWorld α × List (World.Reply α)
  | [] => (s, [])
  | request :: rest =>
    let result := (s.perform request).1.performAll rest
    (result.1, (s.perform request).2 :: result.2)

omit [Circular α] in
/-- A new world is stood for by the one with its settings and words. -/
theorem world_new {settings : Settings α} {entropy : UInt64} {w : World α}
    (h : World.create settings entropy = .ok w) : (new w.settings w.words).world = w := by
  obtain ⟨-, -, h⟩ := bind_eq_ok_iff.mp h
  obtain rfl := Except.ok.inj h
  rfl

variable {s : StoredWorld α}

theorem synced_step (h : s.agents.Synced) : s.step.1.agents.Synced := by
  unfold step
  split
  · exact h
  · split
    · exact h
    · exact h.assign _

theorem synced_perform (h : s.agents.Synced) (request : World.Request α) :
    (s.perform request).1.agents.Synced := by
  cases request with
  | spawn p label =>
      simp only [perform]
      split
      · exact h.insert _
      · exact h
  | spawnRandom =>
      simp only [perform]
      split
      · exact h.insert _
      · exact h
  | remove id =>
      simp only [perform]
      split
      · exact h.remove id
      · exact h
  | update id change => exact h.update id change
  | install program => exact h.updateAll (·.bind program)
  | bind id program =>
      simp only [perform]
      split
      · exact h.update id _
      · exact h
  | addRegion region => exact h
  | draw words => exact h
  | step => exact synced_step h

theorem step_eq (h : s.agents.Synced) : s.world.perform .step = (s.step.1.world, s.step.2) := by
  have hview : s.world.view = View.capture s.settings.cellSize s.regions s.sightings := rfl
  have hentries : s.world.agents.entries = s.agents.entries := rfl
  simp only [World.perform, World.stepAgents, step, hview, hentries]
  cases View.capture s.settings.cellSize s.regions s.sightings with
  | error fault => rfl
  | ok view =>
      simp only
      have hworld := Staging.world_stepAll view.surroundings s.agents.entries (.start s.world)
      cases hround : (Staging.start s.world).stepAll view.surroundings s.agents.entries with
      | mk round ending =>
          rw [hround] at hworld
          have hstart : round.world = s.world := hworld
          cases ending with
          | some fault => simp only [hstart]
          | none =>
              have hids : round.stepped.reverse.map (·.1) = s.agents.roster.ids := by
                rw [List.map_reverse, Staging.ids_stepAll hround]
                simp [Staging.start, Roster.ids, Store.roster]
              have hassign := (Store.roster_assign s.agents round.stepped.reverse).trans
                (Roster.foldl_update_eq h.sound.nodup hids)
              simp only [Staging.commit, hstart, world, hassign]

/-- A request comes to the same as with the world that is stood for. -/
theorem perform_eq (h : s.agents.Synced) (request : World.Request α) :
    s.world.perform request = ((s.perform request).1.world, (s.perform request).2) := by
  cases request with
  | spawn p label =>
      simp only [World.perform, World.spawn, perform]
      cases p.check with
      | error fault => rfl
      | ok =>
          exact Prod.ext (congrArg (World.mk _ _ · _) (h.roster_insert _).symm) rfl
  | spawnRandom =>
      simp only [World.perform, World.spawnRandom, perform]
      cases s.world.randomPlace with
      | error fault => rfl
      | ok place =>
          exact Prod.ext (congrArg (World.mk _ _ · _) (h.roster_insert _).symm) rfl
  | remove id =>
      have hagent : s.world.agent? id = s.agents.get? id := h.find?_eq id
      simp only [World.perform, perform, hagent]
      cases hfound : s.agents.get? id with
      | none =>
          have hremove : s.world.remove id = s.world :=
            congrArg (World.mk _ _ · _) (Roster.erase_of_find?_eq_none (hagent.trans hfound))
          exact Prod.ext hremove rfl
      | some agent =>
          exact Prod.ext (congrArg (World.mk _ _ · _) (h.roster_remove _).symm) rfl
  | update id change =>
      exact Prod.ext (congrArg (World.mk _ _ · _) (Store.roster_update _ _ _).symm) rfl
  | install program =>
      exact Prod.ext (congrArg (World.mk _ _ · _) (Store.roster_updateAll _ _).symm) rfl
  | bind id program =>
      have hagent : s.world.agent? id = s.agents.get? id := h.find?_eq id
      simp only [World.perform, World.bind, perform, hagent]
      cases s.agents.get? id with
      | none => rfl
      | some agent =>
          exact Prod.ext (congrArg (World.mk _ _ · _) (Store.roster_update _ _ _).symm) rfl
  | addRegion region => rfl
  | draw words => rfl
  | step => exact step_eq h

/-- Requests come to the same as with the world that is stood for. -/
theorem performAll_eq (h : s.agents.Synced) (requests : List (World.Request α)) :
    s.world.performAll requests = ((s.performAll requests).1.world, (s.performAll requests).2) ∧
      (s.performAll requests).1.agents.Synced := by
  induction requests generalizing s with
  | nil => exact ⟨rfl, h⟩
  | cons request rest ih =>
      obtain ⟨hrest, hsynced⟩ := ih (synced_perform h request)
      refine ⟨?_, hsynced⟩
      rw [World.performAll, perform_eq h]
      simp only [hrest]
      rfl

/-- For every reachable world there is one with its agents in slots that stands for it. -/
theorem exists_of_reachable {w : World α} (h : w.Reachable) :
    ∃ s : StoredWorld α, s.agents.Synced ∧ s.world = w := by
  induction h with
  | @created _ _ w h => exact ⟨.new w.settings w.words, Store.synced_empty, world_new h⟩
  | changed _ hchange ih =>
      obtain ⟨s, hsynced, rfl⟩ := ih
      obtain ⟨request, rfl⟩ := hchange.exists_request
      exact ⟨(s.perform request).1, synced_perform hsynced request,
        (congrArg Prod.fst (perform_eq hsynced request)).symm⟩

/-- When the copies of a tick have been put in the place of the agents one after the other, all
handles in the list are found, and the agents found are those of the world that is stood for. -/
theorem step_of_stepAgents (h : s.agents.Synced) {next : World α} {activity : Activity}
    (hstep : s.world.stepAgents = (next, .ok activity)) :
    s.step.2 = .stepped activity ∧ s.step.1.agents.order.length = next.agents.size ∧
      s.step.1.agents.entries = next.agents.entries := by
  have hsame := step_eq h
  rw [World.perform, hstep] at hsame
  obtain ⟨hworld, hreply⟩ := Prod.mk.inj hsame
  have hroster : next.agents = s.step.1.agents.roster := congrArg World.agents hworld
  refine ⟨hreply.symm, ?_, ?_⟩
  · rw [hroster, Roster.size_eq_length_ids, (synced_step h).ids_eq]
  · rw [hroster]
    rfl

end StoredWorld

end Flock
