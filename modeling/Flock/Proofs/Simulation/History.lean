import Flock.Proofs.Simulation.Resume

/-!
# The history of a simulation

A simulation does not keep its past as a whole, only the last of its ticks. To say what it
does keep, the past is written down beside it: `Simulation.Chronicle` is a simulation, as
any calls have left it, together with the readings of its clock after every tick since the
clock stood at zero. The history is the end of this list, numbered
(`Simulation.history_keeps_last_ticks`).
-/

namespace Flock

namespace Simulation

variable {α : Type}

/-- How many summaries the history has room for. -/
def capacity (sim : Simulation α) : Nat := sim.world.settings.historyCapacity.toNat

/-- Clock and history are the same as before. -/
structure Untouched (sim next : Simulation α) : Prop where
  history : next.history = sim.history
  tickCount : next.tickCount = sim.tickCount
  elapsed : next.elapsed = sim.elapsed

/-- If the history was the end of a list, it still is with one more summary. -/
theorem map_remember {β : Type} {f : Summary α → β} {capacity : Nat} {history : List (Summary α)}
    {all : List β} (hroom : 0 < capacity) (h : history.map f = all.drop (all.length - capacity))
    (summary : Summary α) :
    (remember capacity history summary).map f =
      (all ++ [f summary]).drop (all.length + 1 - capacity) := by
  have hlength : history.length = all.length - (all.length - capacity) := by
    rw [← List.length_drop, ← h, List.length_map]
  calc (remember capacity history summary).map f
    _ = (all.drop (all.length - capacity)).drop (history.length + 1 - capacity) ++ [f summary] := by
      rw [remember, List.map_append, List.map_drop, h, List.map_singleton]
    _ = all.drop (all.length + 1 - capacity) ++ [f summary] := by
      rw [List.drop_drop]
      congr 2
      omega
    _ = (all ++ [f summary]).drop (all.length + 1 - capacity) :=
      (List.drop_append_of_le_length (by omega)).symm

/-- The reading of the clock right after a call, if the call has run a tick. -/
def reading : Simulation α × Except (Fault α) (Option (Summary α)) → List α
  | (next, .ok (some _)) => [next.elapsed]
  | _ => []

variable [Scalar α]

/-- A list of readings is what the clock and the history of a simulation have been made
from: the clock shows the last of them, and the history has the last few, numbered from 1. -/
structure Keeps (sim : Simulation α) (log : List α) : Prop where
  room : sim.world.settings.historyCapacity ≠ 0
  tickCount : sim.tickCount = log.length
  elapsed : sim.elapsed = log.getLastD Scalar.zero
  history : sim.history.map (fun summary => (summary.elapsed, summary.tick)) =
    (log.zipIdx 1).drop (log.length - sim.capacity)

variable {sim next : Simulation α} {log : List α} {dt budget : α}

namespace Keeps

theorem capacity_pos (h : Keeps sim log) : 0 < sim.capacity :=
  Nat.pos_of_ne_zero fun hzero => h.room (UInt64.toNat_inj.mp hzero)

theorem of_untouched (h : Keeps sim log) (hsettings : next.world.settings = sim.world.settings)
    (hnext : Untouched sim next) : Keeps next log := by
  have hcapacity : next.capacity = sim.capacity :=
    congrArg (fun settings => settings.historyCapacity.toNat) hsettings
  refine ⟨hsettings ▸ h.room, hnext.tickCount.trans h.tickCount, hnext.elapsed.trans h.elapsed, ?_⟩
  rw [hnext.history, hcapacity]
  exact h.history

/-- A simulation without history whose clock stands at zero keeps nothing. -/
theorem nil (hroom : sim.world.settings.historyCapacity ≠ 0) (hcount : sim.tickCount = 0)
    (helapsed : sim.elapsed = Scalar.zero) (hhistory : sim.history = []) : Keeps sim [] :=
  ⟨hroom, hcount, helapsed, by rw [hhistory]; simp⟩

theorem length_history (h : Keeps sim log) :
    sim.history.length = log.length - (log.length - sim.capacity) := by
  have hlength := congrArg List.length h.history
  rwa [List.length_map, List.length_drop, List.length_zipIdx] at hlength

/-- The last summary shows the present count and time. -/
theorem last (h : Keeps sim log) {summary : Summary α} (hlast : sim.last? = some summary) :
    summary.tick = sim.tickCount ∧ summary.elapsed = sim.elapsed := by
  have hlasts := congrArg List.getLast? h.history
  rw [List.getLast?_map, show sim.history.getLast? = _ from hlast, Option.map_some,
    List.getLast?_drop] at hlasts
  split at hlasts
  · exact absurd hlasts (by simp)
  · rw [List.getLast?_zipIdx] at hlasts
    obtain ⟨reading, hreading, heq⟩ := Option.map_eq_some_iff.mp hlasts.symm
    obtain ⟨rfl, htick⟩ := Prod.mk.inj heq
    have helapsed := h.elapsed
    rw [List.getLastD_eq_getLast?, hreading] at helapsed
    have hcount := h.tickCount
    exact ⟨by omega, helapsed.symm⟩

theorem commit (h : Keeps sim log) {world : World α}
    (hsettings : world.settings = sim.world.settings) (dt budget : α) (activity : Activity) :
    Keeps ((sim.configure dt budget).commit world (sim.summarize dt world activity))
      (log ++ [sim.elapsed + dt]) where
  room := by
    change world.settings.historyCapacity ≠ 0
    rw [hsettings]
    exact h.room
  tickCount := by
    change sim.tickCount + 1 = _
    rw [h.tickCount, List.length_append, List.length_singleton]
  elapsed := List.getLastD_concat.symm
  history := by
    have hcapacity : capacity ((sim.configure dt budget).commit world
        (sim.summarize dt world activity)) = sim.capacity :=
      congrArg (fun settings => settings.historyCapacity.toNat) hsettings
    have hlength : (log.zipIdx 1).length = log.length := List.length_zipIdx
    have hremember := map_remember h.capacity_pos (hlength.symm ▸ h.history)
      (sim.summarize dt world activity)
    rw [hcapacity, List.zipIdx_append, List.length_append, Nat.add_comm 1, ← h.tickCount]
    rw [hlength, ← h.tickCount] at hremember
    exact hremember

end Keeps

variable [Circular α]

/-- The readings of the clock right after each tick of a run. -/
def readings (dt budget : α) : Nat → Simulation α → List α
  | 0, _ => []
  | limit + 1, sim =>
    match sim.tick dt budget with
    | (next, .ok (some _)) => next.elapsed :: readings dt budget limit next
    | _ => []

/-- A simulation that was started around a reachable world, after any calls: the readings
of its clock right after each tick since the start, or since the clock was set back. Between
the calls the world may be changed in any way, but not its settings. -/
inductive Chronicle : Simulation α → List α → Prop where
  | started {w : World α} (h : w.Reachable) : Chronicle (start w) []
  | ticked {sim : Simulation α} {log : List α} (h : Chronicle sim log) (dt budget : α) :
      Chronicle (sim.tick dt budget).1 (log ++ reading (sim.tick dt budget))
  | ran {sim : Simulation α} {log : List α} {β : Type} (h : Chronicle sim log)
      (gather : β → Summary α → β) (dt budget : α) (limit : Nat) (b : β) :
      Chronicle (runFor gather dt budget limit b sim).simulation
        (log ++ readings dt budget limit sim)
  | rewound {sim : Simulation α} {log : List α} (h : Chronicle sim log) :
      Chronicle sim.resetClock []
  | turned {sim : Simulation α} {log : List α} {w : World α} (h : Chronicle sim log)
      (hsettings : w.settings = sim.world.settings) : Chronicle { sim with world := w } log

/-- A call that runs no tick leaves clock and history as they are. -/
theorem untouched_tick (h : reading (sim.tick dt budget) = []) :
    Untouched sim (sim.tick dt budget).1 := by
  have houtcome := outcome_tick sim dt budget
  generalize sim.tick dt budget = result at houtcome h
  cases houtcome with
  | refused => exact ⟨rfl, rfl, rfl⟩
  | completed => exact ⟨rfl, rfl, rfl⟩
  | failed => exact ⟨rfl, rfl, rfl⟩
  | ran => exact absurd h (List.cons_ne_nil _ _)

theorem reading_eq_nil_iff :
    reading (sim.tick dt budget) = [] ↔
      ∀ summary, (sim.tick dt budget).2 ≠ .ok (some summary) := by
  generalize sim.tick dt budget = result
  obtain ⟨next, fault | _ | summary⟩ := result <;> simp [reading]

theorem untouched_runUpTo {limit : Nat} (h : (sim.runUpTo limit dt budget).gathered = 0) :
    Untouched sim (sim.runUpTo limit dt budget).simulation := by
  cases limit with
  | zero => exact ⟨rfl, rfl, rfl⟩
  | succ limit =>
      have huntouched : reading (sim.tick dt budget) = [] → Untouched sim (sim.tick dt budget).1 :=
        untouched_tick
      generalize htick : sim.tick dt budget = result at huntouched
      obtain ⟨next, fault | _ | summary⟩ := result
      · rw [runUpTo_of_failed htick]
        exact huntouched rfl
      · rw [runUpTo_of_completed htick]
        exact huntouched rfl
      · rw [runUpTo_of_ran htick, Run.gathered_after] at h
        omega

theorem settings_tick (sim : Simulation α) (dt budget : α) :
    (sim.tick dt budget).1.world.settings = sim.world.settings := by
  have houtcome := outcome_tick sim dt budget
  have hsettings := (World.stepAgents_keeps sim.world).1
  generalize sim.tick dt budget = result at houtcome
  cases houtcome with
  | refused => rfl
  | completed => rfl
  | failed _ _ hstep =>
      rw [hstep] at hsettings
      exact hsettings
  | ran _ _ hstep =>
      rw [hstep] at hsettings
      exact hsettings

/-- What a single call preserves. -/
theorem Keeps.tick (h : Keeps sim log) (dt budget : α) :
    Keeps (sim.tick dt budget).1 (log ++ reading (sim.tick dt budget)) := by
  by_cases hidle : reading (sim.tick dt budget) = []
  · rw [hidle, List.append_nil]
    exact h.of_untouched (settings_tick sim dt budget) (untouched_tick hidle)
  · have hsettings := settings_tick sim dt budget
    have houtcome := outcome_tick sim dt budget
    generalize sim.tick dt budget = result at houtcome hidle hsettings
    cases houtcome with
    | refused => exact absurd rfl hidle
    | completed => exact absurd rfl hidle
    | failed => exact absurd rfl hidle
    | ran => exact h.commit hsettings dt budget _

/-- What a run preserves. -/
theorem Keeps.runFor {β : Type} (h : Keeps sim log) (gather : β → Summary α → β) (dt budget : α)
    (limit : Nat) (b : β) :
    Keeps (runFor gather dt budget limit b sim).simulation
      (log ++ readings dt budget limit sim) := by
  induction limit generalizing sim log b with
  | zero =>
      rw [readings, List.append_nil]
      exact h
  | succ limit ih =>
      have hnext := h.tick dt budget
      rw [Simulation.runFor, readings]
      generalize sim.tick dt budget = result at hnext
      obtain ⟨next, fault | _ | summary⟩ := result
      · exact hnext
      · exact hnext
      · rw [List.append_cons]
        exact ih hnext _

theorem Chronicle.keeps (h : Chronicle sim log) : Keeps sim log := by
  induction h with
  | started h => exact .nil (Settings.check_eq_ok_iff.mp h.check_settings).1 rfl rfl rfl
  | ticked _ dt budget ih => exact ih.tick dt budget
  | ran _ gather dt budget limit b ih => exact ih.runFor gather dt budget limit b
  | rewound _ ih => exact .nil ih.room rfl rfl rfl
  | turned _ hsettings ih => exact ih.of_untouched hsettings ⟨rfl, rfl, rfl⟩

/-- The clock and the history of a simulation after any calls. As many ticks are counted as
were run since the start, or since the clock was set back. The history has the last of them,
as many as it has room for, oldest first, with consecutive numbers up to the present count,
and for each of them the reading of the clock right after it. Its last summary shows the
present count and time. A call that runs no tick changes none of this. -/
theorem history_keeps_last_ticks (h : Chronicle sim log) :
    sim.tickCount = log.length ∧
    sim.history.length = min sim.tickCount sim.world.settings.historyCapacity.toNat ∧
    sim.history.map (·.tick) =
      List.range' (sim.tickCount - sim.history.length + 1) sim.history.length ∧
    sim.history.map (·.elapsed) = log.drop (sim.tickCount - sim.history.length) ∧
    (∀ summary, sim.last? = some summary →
      summary.tick = sim.tickCount ∧ summary.elapsed = sim.elapsed) ∧
    (∀ dt budget, (∀ summary, (sim.tick dt budget).2 ≠ .ok (some summary)) →
      Untouched sim (sim.tick dt budget).1) ∧
    ∀ dt budget limit, (sim.runUpTo limit dt budget).gathered = 0 →
      Untouched sim (sim.runUpTo limit dt budget).simulation := by
  have hkeeps := h.keeps
  have hcount := hkeeps.tickCount
  have hlength := hkeeps.length_history
  have hdropped : log.length - sim.capacity = sim.tickCount - sim.history.length := by omega
  refine ⟨hcount, ?_, ?_, ?_, fun _ => hkeeps.last, fun dt budget hnone =>
    untouched_tick (reading_eq_nil_iff.mpr hnone), fun dt budget limit => untouched_runUpTo⟩
  · change _ = min sim.tickCount sim.capacity
    omega
  · have hticks := congrArg (List.map Prod.snd) hkeeps.history
    rw [List.map_map, List.map_drop, List.zipIdx_map_snd, List.drop_range'] at hticks
    refine hticks.trans ?_
    congr 1 <;> omega
  · have hreadings := congrArg (List.map Prod.fst) hkeeps.history
    rw [List.map_map, List.map_drop, List.zipIdx_map_fst, hdropped] at hreadings
    exact hreadings

/-- A world without agents in which only two ticks are remembered. -/
def forgetful : World Whole :=
  ⟨{ (Settings.default : Settings Whole) with historyCapacity := 2 }, .ofSeed 3, .empty, []⟩

theorem reachable_forgetful : forgetful.Reachable :=
  @World.Reachable.created Whole _ _ forgetful.settings 3 _ rfl

/-- One tick, a call that is refused, the clock set back, three more ticks of length 2, and a
call when the budget is used up: the last two ticks are remembered. -/
theorem history_keeps_last_ticks_forgetful :
    let rewound := (((start forgetful).tick 1 9).1.tick 0 9).1.resetClock
    let sim := ((rewound.runUpTo 10 2 6).simulation.tick 2 6).1
    sim.tickCount = 3 ∧ sim.history.map (·.tick) = [2, 3] ∧
      sim.history.map (·.elapsed) = [4, 6] := by
  intro rewound sim
  have hstarted := ((Chronicle.started reachable_forgetful).ticked 1 9).ticked 0 9
  have hchronicle : Chronicle sim [2, 4, 6] :=
    (hstarted.rewound.ran (fun count _ => count + 1) 2 6 10 0).ticked 2 6
  obtain ⟨hcount, hlength, hticks, hreadings, -⟩ := history_keeps_last_ticks hchronicle
  have hthree : sim.tickCount = 3 := hcount
  have htwo : sim.history.length = 2 := by
    rw [hlength, hthree]
    rfl
  rw [hthree, htwo] at hticks hreadings
  exact ⟨hthree, hticks, hreadings⟩

end Simulation

end Flock
