import Flock.Proofs.Simulation.Clock
import Flock.Proofs.World.Stored
import Flock.Report

/-!
# Reports and summaries

What a tick has done is told twice. Its summary counts what the agents have reported, one
after the other, while they stepped as copies. A report reads off the agents what they are
when the tick is over. Right after a tick the two tell the same
(`Report.matches_summary_of_tick`), because each copy is what its own report says of it, and
all copies, and no other agents, are what the world holds in the end.

The counts agree copy by copy: whoever is finished after a step has reported so, or has no
program and makes no reports (`Staging.Tallied`).
-/

namespace Flock

variable {α : Type}

theorem Activity.exhausted_record (a : Activity) (report : Option (StepReport α)) :
    (a.record report).exhausted = a.exhausted + if report.any (·.exhausted) then 1 else 0 := by
  cases report <;> rfl

namespace World

/-- The number of agents that have nothing left to run. -/
def finishedCount (w : World α) : Nat := w.agents.entries.countP (·.2.isFinished)

/-- The number of agents that have no program. -/
def idlerCount (w : World α) : Nat := w.agents.entries.countP (·.2.execution.isNone)

end World

namespace Staging

/-- Of the copies that have stepped, as many are finished as have reported so, and those that
have no program besides. -/
def Tallied (s : Staging α) : Prop :=
  s.stepped.countP (·.2.isFinished) =
    s.activity.exhausted + s.stepped.countP (·.2.execution.isNone)

theorem tallied_start (w : World α) : (start w).Tallied := rfl

end Staging

/-! What a report holds. -/

namespace Report

variable [Circular α] {sim : Simulation α}

theorem signalling_ofSimulation (sim : Simulation α) :
    (ofSimulation sim).signalling = sim.world.signallingCount := List.countP_map

theorem countP_finished_ofSimulation (sim : Simulation α) :
    (ofSimulation sim).agents.countP (·.finished) = sim.world.finishedCount := List.countP_map

/-- The agents of a report are those found under the handles in use, in the order of these. -/
theorem map_agents_ofSimulation (h : sim.world.agents.Sound) :
    (ofSimulation sim).agents.map some =
      sim.world.agents.ids.map fun id => (sim.world.agent? id).map AgentReport.ofAgent := by
  rw [ofSimulation, Roster.ids, List.map_map, List.map_map]
  refine List.map_congr_left fun e he => ?_
  have hfound : sim.world.agent? e.1 = some e.2 := (Roster.find?_eq_some_iff h).mpr he
  simp [hfound]

end Report

variable [Scalar α] [Circular α]

/-! What the agents report. -/

/-- A step reports whether there is anything left to run after it. -/
theorem Cursor.exhausted_of_step {p : Program α} {c : Cursor} {id : AgentId}
    {view : Surroundings α} {b : Body α} {words : WordStream} {turn : Turn α}
    (h : (c.step p id view b words).2 = .ok turn) :
    turn.report.exhausted = (c.step p id view b words).1.isExhausted p := by
  have houtcome := outcome_step p id view c b words
  generalize c.step p id view b words = result at houtcome h ⊢
  cases houtcome with
  | idle =>
      obtain rfl := Except.ok.inj h
      rfl
  | failed => exact absurd h (by simp)
  | executed =>
      obtain rfl := Except.ok.inj h
      rfl

/-- An agent that makes no report has no program. Any other one reports whether it is
finished. -/
theorem Agent.isFinished_of_step {id : AgentId} {view : Surroundings α} {agent next : Agent α}
    {words rest : WordStream} {report : Option (StepReport α)}
    (h : agent.step id view words = (next, .ok (report, rest))) :
    next.execution.isNone = report.isNone ∧ next.isFinished = report.all (·.exhausted) := by
  unfold step at h
  split at h
  · next hexecution =>
    obtain ⟨rfl, hreport⟩ := Prod.mk.inj h
    obtain ⟨rfl, -⟩ := Prod.mk.inj (Except.ok.inj hreport)
    simp [isFinished, hexecution]
  · split at h
    · exact absurd (congrArg Prod.snd h) (by simp)
    · next execution _ cursor turn hstep =>
      obtain ⟨rfl, hreport⟩ := Prod.mk.inj h
      obtain ⟨rfl, -⟩ := Prod.mk.inj (Except.ok.inj hreport)
      have hexhausted := Cursor.exhausted_of_step (congrArg Prod.snd hstep)
      rw [hstep] at hexhausted
      exact ⟨rfl, hexhausted.symm⟩

namespace Staging

variable {view : Surroundings α} {s next : Staging α}

/-- The step of one copy keeps the tally. -/
theorem Tallied.stepOne {id : AgentId} {agent : Agent α} (h : s.Tallied)
    (hstep : s.stepOne view id agent = (next, none)) : next.Tallied := by
  unfold Staging.stepOne at hstep
  split at hstep
  · exact absurd (congrArg Prod.snd hstep) (by simp)
  · next copy report words hagent =>
    obtain rfl := congrArg Prod.fst hstep
    obtain ⟨hprogram, hfinished⟩ := Agent.isFinished_of_step hagent
    have hcount : s.stepped.countP (·.2.isFinished) =
        s.activity.exhausted + s.stepped.countP (·.2.execution.isNone) := h
    simp only [Tallied, List.countP_cons, Activity.exhausted_record, hprogram, hfinished, hcount]
    cases report with
    | none => simp [Nat.add_assoc]
    | some report => simp [Nat.add_right_comm]

/-- A round in which no agent fails keeps the tally. -/
theorem Tallied.stepAll {entries : List (AgentId × Agent α)} (h : s.Tallied)
    (hround : s.stepAll view entries = (next, none)) : next.Tallied := by
  -- the copies that have stepped before are arbitrary
  induction entries generalizing s with
  | nil =>
      obtain rfl := congrArg Prod.fst hround
      exact h
  | cons e rest ih =>
      simp only [Staging.stepAll] at hround
      split at hround
      · exact absurd (congrArg Prod.snd hround) (by simp)
      · next middle hstep => exact ih (h.stepOne hstep) hround

end Staging

/-- After a tick those agents are finished that have reported so in it, and those that have no
program. -/
theorem World.finishedCount_of_stepAgents {w next : World α} {activity : Activity}
    (h : w.stepAgents = (next, .ok activity)) :
    next.finishedCount = activity.exhausted + next.idlerCount := by
  have hround := round_stepAgents w
  rw [h] at hround
  cases hround with
  | stepped _ _ hround =>
      have htallied := (Staging.tallied_start w).stepAll hround
      simpa [finishedCount, idlerCount, Staging.commit, Staging.Tallied] using htallied

namespace Simulation

variable {sim next : Simulation α}

/-- The world of a reachable simulation is reachable. -/
theorem Reachable.world (h : Reachable sim) : sim.world.Reachable := by
  induction h with
  | started h => exact h
  | @ticked sim _ dt budget ih =>
      have hstepped := ih.changed (.stepped sim.world)
      have houtcome := outcome_tick sim dt budget
      generalize sim.tick dt budget = result at houtcome
      cases houtcome with
      | refused => exact ih
      | completed => exact ih
      | failed _ _ hstep =>
          rw [hstep] at hstepped
          exact hstepped
      | ran _ _ hstep =>
          rw [hstep] at hstepped
          exact hstepped
  | rewound _ ih => exact ih
  | turned _ hworld _ => exact hworld

/-- What a tick makes of a simulation, and what its summary says. -/
theorem tick_eq_ok {dt budget : α} {summary : Summary α}
    (h : sim.tick dt budget = (next, .ok (some summary))) :
    ∃ activity, sim.world.stepAgents = (next.world, .ok activity) ∧
      summary = sim.summarize dt next.world activity ∧ next.last? = some summary ∧
      next.tickCount = summary.tick ∧ next.elapsed = summary.elapsed := by
  have houtcome := outcome_tick sim dt budget
  rw [h] at houtcome
  cases houtcome with
  | ran _ _ hstep => exact ⟨_, hstep, rfl, List.getLast?_concat, rfl, rfl⟩

end Simulation

namespace Report

variable {sim next : Simulation α} {dt budget : α} {summary : Summary α}

/-- Right after a tick a report tells the same as the summary of the tick, which is the last one
that it shows: as many ticks and the same time, as many agents, of which as many broadcast a
label, and as many are finished as have reported so in the tick or have no program to report
of. The agents are those that have stepped, in the order in which they did.

The same is true where agents are kept in slots and their order in a list of its own: the tick
does the same there, the list has as many handles as the summary says there are agents, and
the agents found under them are those of the report. -/
theorem matches_summary_of_tick (h : sim.Reachable)
    (htick : sim.tick dt budget = (next, .ok (some summary))) :
    let report := ofSimulation next
    report.last = some summary ∧ report.ticks = summary.tick ∧
    report.elapsed = summary.elapsed ∧
    report.agents.length = summary.agentCount ∧
    (report.agents.map some =
      sim.world.agents.ids.map fun id => (next.world.agent? id).map AgentReport.ofAgent) ∧
    report.signalling = summary.signalling ∧
    report.agents.countP (·.finished) = summary.activity.exhausted + next.world.idlerCount ∧
    (∃ stored : StoredWorld α, stored.agents.Synced ∧ stored.world = sim.world) ∧
    ∀ stored : StoredWorld α, stored.agents.Synced → stored.world = sim.world →
      stored.step.2 = .stepped summary.activity ∧
      stored.step.1.agents.order.length = summary.agentCount ∧
      (stored.step.1.agents.entries.map fun e => AgentReport.ofAgent e.2) = report.agents := by
  intro report
  obtain ⟨activity, hstep, rfl, hlast, hticks, helapsed⟩ := Simulation.tick_eq_ok htick
  have hreachable : next.world.Reachable := by
    have hnext := (h.ticked dt budget).world
    rwa [htick] at hnext
  have hids : next.world.agents.ids = sim.world.agents.ids := by
    have hkeeps := (World.stepAgents_keeps sim.world).2.1
    rwa [hstep] at hkeeps
  refine ⟨hlast, hticks, helapsed, List.length_map _, ?_, signalling_ofSimulation next, ?_,
    StoredWorld.exists_of_reachable h.world, ?_⟩
  · rw [← hids]
    exact map_agents_ofSimulation hreachable.sound
  · rw [countP_finished_ofSimulation]
    exact World.finishedCount_of_stepAgents hstep
  · rintro stored hsynced hworld
    rw [← hworld] at hstep
    obtain ⟨hreply, hlength, hentries⟩ := StoredWorld.step_of_stepAgents hsynced hstep
    exact ⟨hreply, hlength, congrArg (List.map fun e => AgentReport.ofAgent e.2) hentries⟩

/-- An agent that broadcasts a label without a program, between one that is to broadcast a label and
come to its end, and one in an endless loop that has the slot of an agent removed before. -/
def trio : World Whole :=
  let placed := ((World.add ⟨.default, .ofSeed 3, .empty, []⟩ (.atPoint ⟨0, 0⟩ "")).add
    (.atPoint ⟨3, 0⟩ "")).add (.atPoint ⟨0, 4⟩ "y")
  (((placed.remove ⟨1, 0⟩).add (.atPoint ⟨1, 1⟩ "")).updateAgent
    ⟨2, 1⟩ (·.bind ⟨#[.action (.signal "x")], [0]⟩)).updateAgent
    ⟨1, 3⟩ (·.bind ⟨#[.action .stop, .block .forever [0]], [1]⟩)

theorem reachable_trio : trio.Reachable := by
  have hstart : World.Reachable (⟨.default, .ofSeed 3, .empty, []⟩ : World Whole) :=
    @World.Reachable.created Whole _ _ .default 3 _ rfl
  exact (hstart.changed (.spawned (p := ⟨0, 0⟩) rfl)).changed (.spawned (p := ⟨3, 0⟩) rfl)
    |>.changed (.spawned (p := ⟨0, 4⟩) rfl) |>.changed (.removed _ _)
    |>.changed (.spawned (p := ⟨1, 1⟩) rfl) |>.changed (.updated _ _ _)
    |>.changed (.updated _ _ _)

/-- In the tick one agent comes to its end. The report has it among two that are finished. -/
theorem matches_summary_of_tick_trio :
    ∃ next, (Simulation.start trio).tick 1 10 = (next, .ok (some ⟨1, 1, 3, ⟨2, 0, 1⟩, 2⟩)) ∧
      (ofSimulation next).ticks = 1 ∧ (ofSimulation next).elapsed = 1 ∧
      (ofSimulation next).agents.length = 3 ∧ (ofSimulation next).signalling = 2 ∧
      (ofSimulation next).agents.countP (·.finished) = 1 + 1 := by
  obtain ⟨next, htick⟩ : ∃ next,
      (Simulation.start trio).tick 1 10 = (next, .ok (some ⟨1, 1, 3, ⟨2, 0, 1⟩, 2⟩)) := ⟨_, rfl⟩
  have hidlers : ((Simulation.start trio).tick 1 10).1.world.idlerCount = 1 := rfl
  rw [htick] at hidlers
  obtain ⟨-, hticks, helapsed, hlength, -, hsignalling, hfinished, -⟩ :=
    matches_summary_of_tick (.started reachable_trio) htick
  rw [hidlers] at hfinished
  exact ⟨next, htick, hticks, helapsed, hlength, hsignalling, hfinished⟩

end Report

end Flock
