import Flock.Proofs.Whole
import Flock.Proofs.World.Fault
import Flock.Simulation

/-!
# Ticks of a simulation that fail

A tick takes effect as a whole or not at all: when an agent fails, the world, the
clock and the history are those from before the tick
(`Simulation.failed_tick_changes_nothing`).

The tick length and the budget asked for are checked first and then taken over,
before any agent steps. So after a fault of an agent the simulation may answer
differently whether its budget is used up; after a fault of a parameter it is the same
simulation as before. Which of the two it was can be told from the fault, as no agent
ever fails for a parameter (`Fault.OfTick.ne_badParameter`).
-/

namespace Flock

variable {α : Type} [Scalar α]

theorem Fault.requirePos_eq_error {name : String} {value : α} {fault : Fault α}
    (h : Fault.requirePos name value = .error fault) : fault = .badParameter name value := by
  unfold Fault.requirePos at h
  split at h
  · exact absurd h (by simp)
  · exact (Except.error.inj h).symm

theorem Fault.requireNonneg_eq_error {name : String} {value : α} {fault : Fault α}
    (h : Fault.requireNonneg name value = .error fault) : fault = .badParameter name value := by
  unfold Fault.requireNonneg at h
  split at h
  · exact absurd h (by simp)
  · exact (Except.error.inj h).symm

namespace Simulation

variable {sim : Simulation α} {dt budget : α} {fault : Fault α}

theorem checkTiming_eq_error (h : checkTiming dt budget = .error fault) :
    ∃ name value, fault = .badParameter name value := by
  rcases bind_eq_error_iff.mp h with h | ⟨-, -, h⟩
  · exact ⟨_, _, Fault.requirePos_eq_error h⟩
  · exact ⟨_, _, Fault.requireNonneg_eq_error h⟩

/-- The simulation with the tick length and the budget of a call taken over. -/
def configure (sim : Simulation α) (dt budget : α) : Simulation α :=
  { sim with dt := dt, budget := budget, configured := true }

variable [Circular α]

/-- What a call can come to: a parameter is refused, the budget is used up, an agent
fails, or a tick is run. -/
inductive Outcome (sim : Simulation α) (dt budget : α) :
    Simulation α × Except (Fault α) (Option (Summary α)) → Prop where
  | refused {name : String} {value : α}
      (h : checkTiming dt budget = .error (.badParameter name value)) :
      Outcome sim dt budget (sim, .error (.badParameter name value))
  | completed (h : checkTiming dt budget = .ok ()) (hdone : (sim.configure dt budget).isCompleted) :
      Outcome sim dt budget (sim.configure dt budget, .ok none)
  | failed {world : World α} {fault : Fault α} (h : checkTiming dt budget = .ok ())
      (hmore : (sim.configure dt budget).isCompleted = false)
      (hstep : sim.world.stepAgents = (world, .error fault)) :
      Outcome sim dt budget ({ sim.configure dt budget with world := world }, .error fault)
  | ran {world : World α} {activity : Activity} (h : checkTiming dt budget = .ok ())
      (hmore : (sim.configure dt budget).isCompleted = false)
      (hstep : sim.world.stepAgents = (world, .ok activity)) :
      Outcome sim dt budget
        ((sim.configure dt budget).commit world (sim.summarize dt world activity),
          .ok (some (sim.summarize dt world activity)))

theorem outcome_tick (sim : Simulation α) (dt budget : α) :
    Outcome sim dt budget (sim.tick dt budget) := by
  cases hcheck : checkTiming dt budget with
  | error fault =>
      obtain ⟨name, value, rfl⟩ := checkTiming_eq_error hcheck
      have h : Outcome sim dt budget _ := .refused hcheck
      simpa [tick, hcheck] using h
  | ok =>
      cases hdone : (sim.configure dt budget).isCompleted with
      | true =>
          have h := Outcome.completed hcheck hdone
          simp only [configure] at hdone h
          simpa [tick, hcheck, hdone] using h
      | false =>
          cases hstep : sim.world.stepAgents with
          | mk world result =>
              cases result with
              | error fault =>
                  have h := Outcome.failed hcheck hdone hstep
                  simp only [configure] at hdone h
                  simpa [tick, hcheck, hdone, hstep] using h
              | ok activity =>
                  have h := Outcome.ran hcheck hdone hstep
                  simp only [configure] at hdone h
                  simpa [tick, hcheck, hdone, hstep, summarize] using h

/-- A tick that fails, of a world by itself or of one that is driven through time,
changes neither the world nor the clock nor the history. If a parameter was at fault,
nothing at all is changed, so the budget is used up if and only if it was before. -/
theorem failed_tick_changes_nothing :
    (∀ (w : World α) (fault : Fault α), w.stepAgents.2 = .error fault → w.stepAgents.1 = w) ∧
    ∀ (sim : Simulation α) (dt budget : α) (fault : Fault α),
      (sim.tick dt budget).2 = .error fault →
        (sim.tick dt budget).1.world = sim.world ∧
        (sim.tick dt budget).1.tickCount = sim.tickCount ∧
        (sim.tick dt budget).1.elapsed = sim.elapsed ∧
        (sim.tick dt budget).1.history = sim.history ∧
        ((∃ name value, fault = .badParameter name value) →
          (sim.tick dt budget).1 = sim ∧
          (sim.tick dt budget).1.isCompleted = sim.isCompleted) := by
  refine ⟨fun w fault h => (World.stepAgents_eq_error h).1, ?_⟩
  intro sim dt budget fault h
  have houtcome := outcome_tick sim dt budget
  generalize sim.tick dt budget = result at houtcome h
  cases houtcome with
  | refused => exact ⟨rfl, rfl, rfl, rfl, fun _ => ⟨rfl, rfl⟩⟩
  | completed => exact absurd h (by simp)
  | ran => exact absurd h (by simp)
  | @failed world other hcheck hmore hstep =>
      obtain rfl := Except.error.inj h
      obtain ⟨hworld, hfault⟩ := World.stepAgents_eq_error (congrArg Prod.snd hstep)
      rw [hstep] at hworld
      refine ⟨hworld, rfl, rfl, rfl, ?_⟩
      rintro ⟨name, value, rfl⟩
      exact absurd rfl (hfault.ne_badParameter name value)

/-- Two agents: the step of the first is to broadcast, and succeeds; the second is to
wait without ever having been given a heading. -/
theorem failed_tick_changes_nothing_second_of_two :
    let signaller : Agent Whole :=
      ⟨.atPoint ⟨0, 0⟩, some (.start ⟨#[.action (.signal "x")], [0]⟩)⟩
    let waiter : Agent Whole := ⟨.atPoint ⟨3, 3⟩, some (.start ⟨#[.action (.wait 2)], [0]⟩)⟩
    let world : World Whole :=
      ⟨.default, .ofSeed 3, ⟨[(⟨1, 0⟩, signaller), (⟨2, 1⟩, waiter)], [], 3, 2⟩, []⟩
    (signaller.step ⟨1, 0⟩ (.alone []) world.words).1.body.label = "x" ∧
    (world.stepAgents.2 = .error .noHeading ∧ world.stepAgents.1 = world) ∧
    (((Simulation.start world).tick 1 10).2 = .error .noHeading ∧
      ((Simulation.start world).tick 1 10).1.world = world) ∧
    ((Simulation.start world).tick 0 10).2 = .error (.badParameter "dt" 0) ∧
      ((Simulation.start world).tick 0 10).1 = .start world := by
  intro signaller waiter world
  have hworld : world.stepAgents.2 = .error .noHeading := rfl
  have hfailed : ((Simulation.start world).tick 1 10).2 = .error .noHeading := rfl
  have hrefused : ((Simulation.start world).tick 0 10).2 = .error (.badParameter "dt" 0) := rfl
  exact ⟨rfl, ⟨hworld, failed_tick_changes_nothing.1 _ _ hworld⟩,
    ⟨hfailed, (failed_tick_changes_nothing.2 _ _ _ _ hfailed).1⟩, hrefused,
    ((failed_tick_changes_nothing.2 _ _ _ _ hrefused).2.2.2.2 ⟨_, _, rfl⟩).1⟩

end Simulation

end Flock
