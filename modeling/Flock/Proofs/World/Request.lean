import Flock.Proofs.World.Reachable

/-!
# Requests to a world

Everything that can be asked of a world, accepted or not, is a `World.Request`, and
`World.perform` says what becomes of the world and what comes back. What is refused changes
nothing (`World.perform_of_refused`).
-/

namespace Flock

namespace World

/-- What can be asked of a world. -/
inductive Request (α : Type) where
  | spawn (p : Point α) (label : String)
  | spawnRandom
  | remove (id : AgentId)
  | update (id : AgentId) (change : Agent α → Agent α)
  | install (program : Program α)
  | bind (id : AgentId) (program : Program α)
  | addRegion (region : Region α)
  | draw (words : WordStream)
  | step

/-- What comes back of a request. -/
inductive Reply (α : Type) where
  /-- An agent was placed under a new handle. -/
  | arrived (id : AgentId)
  /-- An agent was removed. -/
  | left (id : AgentId) (agent : Agent α)
  | stepped (activity : Activity)
  | refused (fault : Fault α)
  /-- There is nothing to tell. -/
  | done

namespace Reply

variable {α : Type}

/-- The handle that was given out. -/
def arrived? : Reply α → Option AgentId
  | arrived id => some id
  | _ => none

/-- The handle that was taken out of use. -/
def left? : Reply α → Option AgentId
  | left id _ => some id
  | _ => none

end Reply

variable {α : Type} [Scalar α] [Circular α]

/-- The world after a request, and what comes back. An agent that is placed gets the next
handle of the roster. -/
def perform (w : World α) : Request α → World α × Reply α
  | .spawn p label =>
    match w.spawn p label with
    | .ok next => (next, .arrived w.agents.nextId)
    | .error fault => (w, .refused fault)
  | .spawnRandom =>
    match w.spawnRandom with
    | .ok next => (next, .arrived w.agents.nextId)
    | .error fault => (w, .refused fault)
  | .remove id =>
    match w.agent? id with
    | some agent => (w.remove id, .left id agent)
    | none => (w.remove id, .done)
  | .update id change => (w.updateAgent id change, .done)
  | .install program => (w.install program, .done)
  | .bind id program =>
    match w.bind id program with
    | .ok next => (next, .done)
    | .error fault => (w, .refused fault)
  | .addRegion region => (w.addRegion region, .done)
  | .draw words => ({ w with words := words }, .done)
  | .step =>
    match w.stepAgents with
    | (next, .ok activity) => (next, .stepped activity)
    | (next, .error fault) => (next, .refused fault)

/-- The world after a list of requests, and what comes back of each of them. -/
def performAll (w : World α) : List (Request α) → World α × List (Reply α)
  | [] => (w, [])
  | request :: rest =>
    let result := (w.perform request).1.performAll rest
    (result.1, (w.perform request).2 :: result.2)

variable {w next : World α}

/-- Every change of a world comes of a request. -/
theorem Change.exists_request (h : Change w next) : ∃ request, (w.perform request).1 = next := by
  cases h with
  | @spawned _ p label h => exact ⟨.spawn p label, by simp [perform, h]⟩
  | spawnedAtRandom h => exact ⟨.spawnRandom, by simp [perform, h]⟩
  | removed id =>
      refine ⟨.remove id, ?_⟩
      simp only [perform]
      split <;> rfl
  | updated id change => exact ⟨.update id change, rfl⟩
  | installed program => exact ⟨.install program, rfl⟩
  | @bound _ id program h => exact ⟨.bind id program, by simp [perform, h]⟩
  | regionAdded region => exact ⟨.addRegion region, rfl⟩
  | drew words => exact ⟨.draw words, rfl⟩
  | stepped =>
      refine ⟨.step, ?_⟩
      simp only [perform]
      split
      · next h => rw [h]
      · next h => rw [h]

/-- A request that is refused changes nothing. -/
theorem perform_of_refused {request : Request α} {fault : Fault α}
    (h : (w.perform request).2 = .refused fault) : (w.perform request).1 = w := by
  cases request with
  | spawn p label =>
      simp only [perform] at h ⊢
      cases hspawn : w.spawn p label with
      | ok next => simp [hspawn] at h
      | error fault => rfl
  | spawnRandom =>
      simp only [perform] at h ⊢
      cases hspawn : w.spawnRandom with
      | ok next => simp [hspawn] at h
      | error fault => rfl
  | remove id =>
      simp only [perform] at h
      split at h <;> exact absurd h (by simp)
  | update => exact absurd h (by simp [perform])
  | install => exact absurd h (by simp [perform])
  | bind id program =>
      simp only [perform] at h ⊢
      cases hbind : w.bind id program with
      | ok next => simp [hbind] at h
      | error fault => rfl
  | addRegion => exact absurd h (by simp [perform])
  | draw => exact absurd h (by simp [perform])
  | step =>
      simp only [perform] at h ⊢
      split at h
      · exact absurd h (by simp)
      · next hstep =>
        have hkept := (stepAgents_eq_error (congrArg Prod.snd hstep)).1
        rwa [hstep] at hkept

end World

end Flock
