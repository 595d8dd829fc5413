import Flock.Proofs.Simulation.Clock

/-!
# Runs in several parts

A run that has used up its budget can be taken up again with a greater one. What it does
then is what it would have done had it been given that budget from the start: whether a
tick is run depends on the clock and the budget, and a budget that leaves no room at some
moment leaves none to a smaller one (`Simulation.tick_of_later`). So it does not matter how
a run is divided into parts (`Simulation.run_eq_runEach`).
-/

namespace Flock

namespace Run

variable {α : Type}

/-- A run that comes after a number of ticks, counted together with them. -/
def after (ticks : Nat) (run : Run α Nat) : Run α Nat :=
  { run with gathered := ticks + run.gathered }

@[simp] theorem gathered_after (ticks : Nat) (run : Run α Nat) :
    (run.after ticks).gathered = ticks + run.gathered := rfl

@[simp] theorem ending_after (ticks : Nat) (run : Run α Nat) :
    (run.after ticks).ending = run.ending := rfl

theorem after_zero (run : Run α Nat) : run.after 0 = run := by
  simp [after]

end Run

namespace Simulation

variable {α : Type} [Scalar α] [Circular α]

/-- Runs ticks until the budget is used up or a limit is reached, counting them. -/
def runUpTo (sim : Simulation α) (limit : Nat) (dt budget : α) : Run α Nat :=
  runFor (fun count _ => count + 1) dt budget limit 0 sim

/-- Runs ticks for one budget after the other, each run taking up where the one before it
has left off, until one of them does not use up its budget. -/
def runEach (sim : Simulation α) (limit : Nat) (dt : α) : List α → Run α Nat
  | [] => ⟨sim, 0, .completed⟩
  | budget :: rest =>
    let part := sim.runUpTo limit dt budget
    match part.ending with
    | .completed => (part.simulation.runEach limit dt rest).after part.gathered
    | _ => part

/-- What becomes of a run with a greater budget, that has to do for more ticks: it goes on if
the budget is used up, and keeps the fault that has ended it. -/
def resume (run : Run α Nat) (more : Nat) (dt later : α) : Run α Nat :=
  match run.ending with
  | .completed => (run.simulation.runUpTo (more + 1) dt later).after run.gathered
  | _ => { run with simulation := run.simulation.configure dt later }

theorem resume_of_completed {run : Run α Nat} (h : run.ending = .completed) (more : Nat)
    (dt later : α) :
    resume run more dt later =
      (run.simulation.runUpTo (more + 1) dt later).after run.gathered := by
  simp only [resume, h]

theorem resume_of_failed {run : Run α Nat} {fault : Fault α} (h : run.ending = .failed fault)
    (more : Nat) (dt later : α) :
    resume run more dt later = { run with simulation := run.simulation.configure dt later } := by
  simp only [resume, h]

theorem resume_after (run : Run α Nat) (ticks more : Nat) (dt later : α) :
    resume (run.after ticks) more dt later = (resume run more dt later).after ticks := by
  unfold resume
  cases h : run.ending <;> simp [Run.after, h, Nat.add_assoc]

variable {sim next : Simulation α} {dt budget later : α} {fault : Fault α}

/-- Ticks counted before a run are added to its own. -/
theorem runFor_eq_after (limit ticks more : Nat) (sim : Simulation α) (dt budget : α) :
    runFor (fun count _ => count + 1) dt budget limit (ticks + more) sim =
      (runFor (fun count _ => count + 1) dt budget limit more sim).after ticks := by
  induction limit generalizing sim more with
  | zero => rfl
  | succ limit ih =>
      rw [runFor, runFor]
      generalize sim.tick dt budget = result
      obtain ⟨next, fault | _ | summary⟩ := result
      · rfl
      · rfl
      · exact ih (more + 1) next

theorem runUpTo_of_completed (h : sim.tick dt budget = (next, .ok none)) (limit : Nat) :
    sim.runUpTo (limit + 1) dt budget = ⟨next, 0, .completed⟩ := by
  rw [runUpTo, runFor, h]

theorem runUpTo_of_failed (h : sim.tick dt budget = (next, .error fault)) (limit : Nat) :
    sim.runUpTo (limit + 1) dt budget = ⟨next, 0, .failed fault⟩ := by
  rw [runUpTo, runFor, h]

theorem runUpTo_of_ran {summary : Summary α}
    (h : sim.tick dt budget = (next, .ok (some summary))) (limit : Nat) :
    sim.runUpTo (limit + 1) dt budget = (next.runUpTo limit dt budget).after 1 := by
  rw [runUpTo, runFor, h]
  exact runFor_eq_after limit 1 0 next dt budget

/-- What a call with a tick length and a budget that are accepted comes to. -/
theorem tick_of_checkTiming (h : checkTiming dt budget = .ok ()) (sim : Simulation α) :
    sim.tick dt budget =
      if (sim.configure dt budget).isCompleted then (sim.configure dt budget, .ok none)
      else
        match sim.world.stepAgents with
        | (world, .error fault) => ({ sim.configure dt budget with world := world }, .error fault)
        | (world, .ok activity) =>
          ((sim.configure dt budget).commit world (sim.summarize dt world activity),
            .ok (some (sim.summarize dt world activity))) := by
  rw [tick, h]
  rfl

/-- The tick length and the budget of earlier calls have no bearing on a call. -/
theorem tick_configure (h : checkTiming dt budget = .ok ()) (sim : Simulation α)
    (dt' budget' : α) :
    (sim.configure dt' budget').tick dt budget = sim.tick dt budget := by
  rw [tick_of_checkTiming h, tick_of_checkTiming h]
  rfl

theorem runUpTo_configure (h : checkTiming dt budget = .ok ()) (sim : Simulation α)
    (dt' budget' : α) (limit : Nat) :
    (sim.configure dt' budget').runUpTo (limit + 1) dt budget =
      sim.runUpTo (limit + 1) dt budget := by
  simp only [runUpTo, runFor, tick_configure h]

section Later

variable (hle : ∀ elapsed : α, later ≤ elapsed → budget ≤ elapsed)
  (hcheck : checkTiming dt budget = .ok ()) (hlater : checkTiming dt later = .ok ())

include hle hcheck hlater

/-- A call for which a budget leaves room does the same with a greater one. -/
theorem tick_of_later (hmore : (sim.configure dt budget).isCompleted = false) :
    sim.tick dt later = ((sim.tick dt budget).1.configure dt later, (sim.tick dt budget).2) := by
  have hmore' : (sim.configure dt later).isCompleted = false := by
    have h : ¬ budget ≤ sim.elapsed + tolerance * dt := of_decide_eq_false hmore
    exact decide_eq_false (mt (hle _) h)
  rw [tick_of_checkTiming hcheck, tick_of_checkTiming hlater, hmore, hmore']
  simp only [Bool.false_eq_true, if_false]
  split <;> rfl

/-- What a run comes to with a greater budget. -/
theorem runUpTo_of_later {limit : Nat} (sim : Simulation α)
    (h : (sim.runUpTo limit dt budget).ending ≠ .unfinished) (more : Nat) :
    let part := sim.runUpTo limit dt budget
    sim.runUpTo (part.gathered + more + 1) dt later = resume part more dt later := by
  induction limit generalizing sim with
  | zero => exact absurd rfl h
  | succ limit ih =>
      have houtcome := outcome_tick sim dt budget
      generalize htick : sim.tick dt budget = result at houtcome
      cases houtcome with
      | refused hrefused => exact absurd (hcheck.symm.trans hrefused) (by simp)
      | completed =>
          simp only [runUpTo_of_completed htick, resume, Run.after_zero, Nat.zero_add]
          exact (runUpTo_configure hlater sim dt budget more).symm
      | failed _ hmore =>
          have hfails := tick_of_later hle hcheck hlater hmore
          rw [htick] at hfails
          simp only [runUpTo_of_failed htick, runUpTo_of_failed hfails, resume]
      | @ran world activity _ hmore =>
          have hruns := tick_of_later hle hcheck hlater hmore
          rw [htick] at hruns
          have hpart := runUpTo_of_ran htick limit
          generalize (sim.configure dt budget).commit world (sim.summarize dt world activity) = next
            at hruns hpart
          rw [hpart] at h ⊢
          have hcount : ((next.runUpTo limit dt budget).after 1).gathered + more + 1 =
              (next.runUpTo limit dt budget).gathered + more + 1 + 1 := by
            rw [Run.gathered_after]
            omega
          simp only [hcount]
          rw [runUpTo_of_ran hruns, runUpTo_configure hlater, ih next h, resume_after]

end Later

theorem runEach_of_completed {limit : Nat}
    (h : (sim.runUpTo limit dt budget).ending = .completed) (rest : List α) :
    sim.runEach limit dt (budget :: rest) =
      ((sim.runUpTo limit dt budget).simulation.runEach limit dt rest).after
        (sim.runUpTo limit dt budget).gathered := by
  simp only [runEach, h]

theorem runEach_of_not_completed {limit : Nat}
    (h : (sim.runUpTo limit dt budget).ending ≠ .completed) (rest : List α) :
    sim.runEach limit dt (budget :: rest) = sim.runUpTo limit dt budget := by
  rw [runEach]
  split
  · next hcompleted => exact absurd hcompleted h
  · rfl

/-- The same for a run in several parts, none of which has a greater budget. -/
theorem runUpTo_of_runEach {limit : Nat} {budgets : List α} (sim : Simulation α)
    (hbudgets : ∀ budget ∈ budgets, checkTiming dt budget = .ok () ∧
      ∀ elapsed : α, later ≤ elapsed → budget ≤ elapsed)
    (hlater : checkTiming dt later = .ok ())
    (h : (sim.runEach limit dt budgets).ending ≠ .unfinished) (more : Nat) :
    let parts := sim.runEach limit dt budgets
    sim.runUpTo (parts.gathered + more + 1) dt later = resume parts more dt later := by
  induction budgets generalizing sim more with
  | nil => simp only [runEach, resume, Run.after_zero, Nat.zero_add]
  | cons budget rest ih =>
      obtain ⟨hcheck, hle⟩ := hbudgets budget List.mem_cons_self
      by_cases hcompleted : (sim.runUpTo limit dt budget).ending = .completed
      · rw [runEach_of_completed hcompleted] at h ⊢
        have hpart := runUpTo_of_later hle hcheck hlater sim (by rw [hcompleted]; simp)
        have hrest := ih (sim.runUpTo limit dt budget).simulation
          (fun other hother => hbudgets other (List.mem_cons_of_mem _ hother)) h more
        -- what the parts to come need is left over by the first
        simp only [Run.gathered_after, Nat.add_assoc] at hpart hrest ⊢
        rw [← Nat.add_assoc _ more, hpart, resume_of_completed hcompleted, Nat.add_assoc, hrest,
          resume_after]
      · rw [runEach_of_not_completed hcompleted] at h ⊢
        exact runUpTo_of_later hle hcheck hlater sim h more

/-- A budget that is used up leaves no room for another tick. -/
theorem tick_of_completed {limit : Nat} (hcheck : checkTiming dt budget = .ok ())
    (sim : Simulation α) (h : (sim.runUpTo limit dt budget).ending = .completed) :
    let part := sim.runUpTo limit dt budget
    part.simulation.tick dt budget = (part.simulation, .ok none) := by
  induction limit generalizing sim with
  | zero => exact absurd h (by simp [runUpTo, runFor])
  | succ limit ih =>
      have houtcome := outcome_tick sim dt budget
      generalize htick : sim.tick dt budget = result at houtcome
      cases houtcome with
      | refused hrefused => exact absurd (hcheck.symm.trans hrefused) (by simp)
      | completed =>
          rw [runUpTo_of_completed htick]
          exact (tick_configure hcheck sim dt budget).trans htick
      | failed =>
          rw [runUpTo_of_failed htick] at h
          exact absurd h (by simp)
      | ran =>
          rw [runUpTo_of_ran htick] at h ⊢
          exact ih _ h

theorem tick_of_completed_runEach {limit : Nat} {budgets : List α}
    (hcheck : checkTiming dt later = .ok ()) (sim : Simulation α)
    (h : (sim.runEach limit dt (budgets ++ [later])).ending = .completed) :
    let parts := sim.runEach limit dt (budgets ++ [later])
    parts.simulation.tick dt later = (parts.simulation, .ok none) := by
  induction budgets generalizing sim with
  | nil =>
      by_cases hcompleted : (sim.runUpTo limit dt later).ending = .completed
      · rw [List.nil_append, runEach_of_completed hcompleted]
        exact tick_of_completed hcheck sim hcompleted
      · rw [List.nil_append, runEach_of_not_completed hcompleted] at h
        exact absurd h hcompleted
  | cons budget rest ih =>
      by_cases hcompleted : (sim.runUpTo limit dt budget).ending = .completed
      · rw [List.cons_append, runEach_of_completed hcompleted] at h ⊢
        exact ih _ h
      · rw [List.cons_append, runEach_of_not_completed hcompleted] at h
        exact absurd h hcompleted

/-- A run that uses up its budget has fewer ticks than there are doubles, as each of them
moves the clock on. -/
theorem gathered_add_rank_lt {dt budget : Float} {limit : Nat} (sim : Simulation Float)
    (hsim : 0 ≤ sim.elapsed) (hpos : 0 < dt)
    (h : (sim.runUpTo limit dt budget).ending = .completed) :
    (sim.runUpTo limit dt budget).gathered + Double.rank sim.elapsed < 2 ^ 64 := by
  induction limit generalizing sim with
  | zero => exact absurd h (by simp [runUpTo, runFor])
  | succ limit ih =>
      have houtcome := outcome_tick sim dt budget
      generalize htick : sim.tick dt budget = result at houtcome
      cases houtcome with
      | refused =>
          rw [runUpTo_of_failed htick] at h
          exact absurd h (by simp)
      | failed =>
          rw [runUpTo_of_failed htick] at h
          exact absurd h (by simp)
      | completed =>
          rw [runUpTo_of_completed htick, Nat.zero_add]
          exact Double.rank_lt sim.elapsed
      | ran _ hmore =>
          have hmoves := (Ticks.lt_or_eq ⟨_, htick⟩ hsim hpos).resolve_right fun hstill =>
            runFor_ne_completed hmore hstill (limit + 1) 0 h
          have hnext := Double.nonneg_of_lt hsim hmoves
          rw [runUpTo_of_ran htick, Run.ending_after] at h
          rw [runUpTo_of_ran htick, Run.gathered_after]
          have hrest := ih _ hnext h
          rw [Double.lt_iff_rank hsim hnext] at hmoves
          omega

/-- A clock that has come to the last of several budgets has come to all of them. -/
theorem le_of_last_le {budget last elapsed : Float} {budgets : List Float}
    (hbudget : Scalar.isFiniteNonneg budget) (hsorted : (budgets ++ [last]).Pairwise (· ≤ ·))
    (hmem : budget ∈ budgets ++ [last]) (hlast : last ≤ elapsed) : budget ≤ elapsed := by
  rcases List.mem_append.mp hmem with hearlier | heq
  · obtain ⟨-, -, hle⟩ := List.pairwise_append.mp hsorted
    exact Double.le_trans_of_nonneg (Scalar.isFiniteNonneg_iff.mp hbudget).2
      (hle budget hearlier last (List.mem_singleton_self last)) hlast
  · rwa [List.mem_singleton.mp heq]

theorem run_eq_runUpTo (sim : Simulation α) (dt budget : α) :
    sim.run dt budget = sim.runUpTo tickLimit dt budget := rfl

/-- It makes no difference whether time is run through at once or in several parts. If runs
with budgets that do not fall use up all of them, one after the other, then a single run with
the last budget does so too: with the ticks of all of them, and it leaves behind the same
simulation. If one of them fails, the single run fails for the same reason, if it is let go
on for as many ticks, and leaves behind the same world, clock and history. -/
theorem run_eq_runEach {sim : Simulation Float} {dt last : Float} {budgets : List Float}
    (h : Reachable sim) (hcheck : ∀ budget ∈ budgets ++ [last], checkTiming dt budget = .ok ())
    (hsorted : (budgets ++ [last]).Pairwise (· ≤ ·)) (limit : Nat) :
    let parts := sim.runEach limit dt (budgets ++ [last])
    (parts.ending = .completed → sim.run dt last = parts) ∧
    ∀ fault, parts.ending = .failed fault → ∀ enough, parts.gathered < enough →
      let whole := sim.runUpTo enough dt last
      whole.ending = .failed fault ∧ whole.gathered = parts.gathered ∧
        whole.simulation.world = parts.simulation.world ∧
        whole.simulation.tickCount = parts.simulation.tickCount ∧
        whole.simulation.elapsed = parts.simulation.elapsed ∧
        whole.simulation.history = parts.simulation.history := by
  intro parts
  have hlast := hcheck last (List.mem_append_right _ (List.mem_singleton_self last))
  have hbudgets : ∀ budget ∈ budgets ++ [last], checkTiming dt budget = .ok () ∧
      ∀ elapsed : Float, last ≤ elapsed → budget ≤ elapsed := fun budget hmem =>
    ⟨hcheck budget hmem, fun _ => le_of_last_le (checkTiming_eq_ok_iff.mp (hcheck budget hmem)).2
      hsorted hmem⟩
  constructor
  · intro hcompleted
    have hwhole (more : Nat) : sim.runUpTo (parts.gathered + more + 1) dt last = parts := by
      have hidle : parts.simulation.tick dt last = (parts.simulation, .ok none) :=
        tick_of_completed_runEach hlast sim hcompleted
      calc sim.runUpTo (parts.gathered + more + 1) dt last
        _ = resume parts more dt last :=
          runUpTo_of_runEach sim hbudgets hlast (by rw [hcompleted]; simp) more
        _ = Run.after parts.gathered ⟨parts.simulation, 0, .completed⟩ := by
          rw [resume_of_completed hcompleted, runUpTo_of_completed hidle]
        _ = parts := by rw [← hcompleted]; rfl
    obtain ⟨-, hpos⟩ := Scalar.isFinitePos_iff.mp (checkTiming_eq_ok_iff.mp hlast).1
    have hfew := gathered_add_rank_lt sim h.elapsed_nonneg hpos (by rw [hwhole 0, hcompleted])
    rw [hwhole 0] at hfew
    have hlimit : parts.gathered < tickLimit := (Nat.le_add_right _ _).trans_lt hfew
    obtain ⟨more, hmore⟩ := Nat.exists_eq_add_of_lt hlimit
    rw [run_eq_runUpTo, hmore, hwhole more]
  · intro fault hfailed enough henough
    obtain ⟨more, rfl⟩ := Nat.exists_eq_add_of_lt henough
    have hresume : sim.runUpTo (parts.gathered + more + 1) dt last =
        { parts with simulation := parts.simulation.configure dt last } := by
      have hparts := runUpTo_of_runEach sim hbudgets hlast (by rw [hfailed]; simp) more
      exact hparts.trans (resume_of_failed hfailed more dt last)
    rw [hresume]
    exact ⟨hfailed, rfl, rfl, rfl, rfl, rfl⟩

/-- A world with an agent that stops three times and then is to go on without a heading. -/
def stopper : World Float :=
  (nobody.add (.atPoint .origin "")).updateAgent ⟨1, 0⟩
    (·.bind ⟨#[.action .stop, .action .stop, .action .stop, .action (.wait 2)], [0, 1, 2, 3]⟩)

theorem reachable_stopper : stopper.Reachable :=
  (reachable_nobody.changed (.spawned (p := .origin) rfl)).changed (.updated _ _ _)

/-- With ticks of length 1, it makes no difference whether the run to time 3 is interrupted
at time 2. The same goes for the run to time 5, in which the agent fails at its fourth tick. -/
theorem run_eq_runEach_stopper :
    (start stopper).run 1 3 = (start stopper).runEach 10 1 [2, 3] ∧
    ((start stopper).run 1 5).ending = .failed .noHeading ∧
      ((start stopper).run 1 5).gathered = 3 := by
  have hstart : Reachable (start stopper) := .started reachable_stopper
  have hcheck : ∀ budget ∈ ([2] ++ [3] : List Float), checkTiming 1 budget = .ok () := by
    decide +kernel
  have hcheck' : ∀ budget ∈ ([2] ++ [5] : List Float), checkTiming 1 budget = .ok () := by
    decide +kernel
  have hcompleted : ((start stopper).runEach 10 1 ([2] ++ [3])).ending = .completed := by
    decide +kernel
  have hfailed : ((start stopper).runEach 10 1 ([2] ++ [5])).ending = .failed .noHeading := by
    decide +kernel
  have hthree : ((start stopper).runEach 10 1 ([2] ++ [5])).gathered = 3 := by decide +kernel
  obtain ⟨hending, hgathered, -⟩ :=
    (run_eq_runEach hstart hcheck' (by decide +kernel) 10).2 .noHeading hfailed tickLimit
      (by rw [hthree]; decide)
  exact ⟨(run_eq_runEach hstart hcheck (by decide +kernel) 10).1 hcompleted, hending,
    hgathered.trans hthree⟩

end Simulation

end Flock
