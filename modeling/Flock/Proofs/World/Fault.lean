import Flock.Proofs.Agent.Fault
import Flock.World.Basic

/-!
# Ticks of a world that fail

Agents step as copies (`Staging`), and staging a step leaves the world it has been
started from alone, whether or not the step succeeds (`Staging.world_stepAll`). So
when an agent fails, after any number of others have stepped, the world is the one
from before the tick (`World.round_stepAgents`, `World.stepAgents_eq_error`).
-/

namespace Flock

variable {α : Type} [Scalar α]

/-- The faults that a tick of a world can come to. -/
def Fault.OfTick {α : Type} (fault : Fault α) : Prop := fault.OfStep ∨ fault = .badCellSize

omit [Scalar α] in
theorem Fault.OfTick.ne_badParameter {fault : Fault α} (h : fault.OfTick) (name : String)
    (value : α) : fault ≠ .badParameter name value := by
  rcases h with (rfl | rfl) | rfl <;> simp

theorem World.view_eq_error {w : World α} {fault : Fault α} (h : w.view = .error fault) :
    fault = .badCellSize := by
  rcases bind_eq_error_iff.mp h with h | ⟨grid, -, h⟩
  · unfold Grid.rebuild at h
    split at h
    · exact absurd h (by simp)
    · exact (Except.error.inj h).symm
  · exact absurd h (by simp [pure, Except.pure])

variable [Circular α]

namespace Staging

variable {view : Surroundings α} {s : Staging α}

/-- The step of one agent leaves the world alone. -/
theorem world_stepOne (view : Surroundings α) (s : Staging α) (id : AgentId) (agent : Agent α) :
    (s.stepOne view id agent).1.world = s.world := by
  unfold stepOne
  split <;> rfl

theorem stepOne_eq_error {id : AgentId} {agent : Agent α} {fault : Fault α}
    (h : (s.stepOne view id agent).2 = some fault) : fault.OfStep := by
  unfold stepOne at h
  split at h
  · next hstep =>
    obtain rfl := Option.some.inj h
    exact Agent.step_eq_error (congrArg Prod.snd hstep)
  · exact absurd h (by simp)

/-- A round of steps leaves the world alone, wherever it ends. -/
theorem world_stepAll (view : Surroundings α) (entries : List (AgentId × Agent α))
    (s : Staging α) : (s.stepAll view entries).1.world = s.world := by
  induction entries generalizing s with
  | nil => rfl
  | cons e rest ih =>
      have hone := world_stepOne view s e.1 e.2
      simp only [stepAll]
      split
      · next hstep => rwa [hstep] at hone
      · next next hstep =>
        rw [hstep] at hone
        rw [ih next, hone]

theorem stepAll_eq_error {entries : List (AgentId × Agent α)} {fault : Fault α}
    (h : (s.stepAll view entries).2 = some fault) : fault.OfStep := by
  induction entries generalizing s with
  | nil => exact absurd h (by simp [stepAll])
  | cons e rest ih =>
      simp only [stepAll] at h
      split at h
      · next hstep =>
        obtain rfl := Option.some.inj h
        exact stepOne_eq_error (congrArg Prod.snd hstep)
      · exact ih h

end Staging

namespace World

variable {w : World α} {fault : Fault α}

/-- What stepping all agents can come to: the world cannot be viewed, an agent fails, or
the copies that have stepped take the place of the agents. -/
inductive Round (w : World α) : World α × Except (Fault α) Activity → Prop where
  | unseen {fault : Fault α} (hview : w.view = .error fault) : Round w (w, .error fault)
  | failed {view : View α} {s : Staging α} {fault : Fault α} (hview : w.view = .ok view)
      (hround : (Staging.start w).stepAll view.surroundings w.agents.entries = (s, some fault)) :
      Round w (w, .error fault)
  | stepped {view : View α} {s : Staging α} (hview : w.view = .ok view) (hworld : s.world = w)
      (hround : (Staging.start w).stepAll view.surroundings w.agents.entries = (s, none)) :
      Round w (s.commit, .ok s.activity)

theorem round_stepAgents (w : World α) : Round w w.stepAgents := by
  cases hview : w.view with
  | error fault => simpa [stepAgents, hview] using Round.unseen hview
  | ok view =>
      have hworld := Staging.world_stepAll view.surroundings w.agents.entries (.start w)
      cases hround : (Staging.start w).stepAll view.surroundings w.agents.entries with
      | mk s ending =>
          rw [hround] at hworld
          have hstart : s.world = w := hworld
          -- what is returned after a fault is the world of the round, not the one before it
          cases ending with
          | some fault => simpa [stepAgents, hview, hround, hstart] using Round.failed hview hround
          | none => simpa [stepAgents, hview, hround] using Round.stepped hview hstart hround

/-- A tick that fails leaves the world as it was. -/
theorem stepAgents_eq_error (h : w.stepAgents.2 = .error fault) :
    w.stepAgents.1 = w ∧ fault.OfTick := by
  have hround := round_stepAgents w
  generalize w.stepAgents = result at hround h
  cases hround with
  | unseen hview =>
      obtain rfl := Except.error.inj h
      exact ⟨rfl, .inr (view_eq_error hview)⟩
  | failed hview hround =>
      obtain rfl := Except.error.inj h
      exact ⟨rfl, .inl (Staging.stepAll_eq_error (congrArg Prod.snd hround))⟩
  | stepped => exact absurd h (by simp)

end World

end Flock
