import Flock.Proofs.Double.Value
import Flock.Proofs.Simulation.Atomic
import Flock.Proofs.World.Reachable

/-!
# The clock of a simulation

Each tick adds its length to the clock, and the sum is rounded. So a tick moves the clock
on, or it is too short for that and leaves the clock as it is (`Simulation.Stands`). A run
that comes to such a tick never uses up its budget. Every other run comes to its end, as
there are only so many doubles for a clock to show.

No tick is too short for a budget of at most `2 ^ 53` times its length. With a greater
budget a run can go on for ever (`Simulation.run_goes_on_for_ever`).
-/

namespace Flock

namespace Simulation

section Run

variable {α : Type} [Scalar α] {sim next later : Simulation α} {dt budget : α}

theorem checkTiming_eq_ok_iff :
    checkTiming dt budget = .ok () ↔ Scalar.isFinitePos dt ∧ Scalar.isFiniteNonneg budget := by
  cases hdt : Scalar.isFinitePos dt <;> cases hbudget : Scalar.isFiniteNonneg budget <;>
    simp [checkTiming, Fault.requirePos, Fault.requireNonneg, hdt, hbudget, bind, Except.bind]

/-- Whether a budget is used up depends on the clock alone. -/
theorem isCompleted_configure_congr (h : sim.elapsed = next.elapsed) :
    (sim.configure dt budget).isCompleted = (next.configure dt budget).isCompleted :=
  congrArg (fun elapsed => true && decide (budget ≤ elapsed + tolerance * dt)) h

/-- A clock that a tick leaves as it is stands still in the next tick too. -/
theorem still_commit (hmore : (sim.configure dt budget).isCompleted = false)
    (hstill : sim.elapsed + dt = sim.elapsed) (world : World α) (activity : Activity) :
    let next := (sim.configure dt budget).commit world (sim.summarize dt world activity)
    (next.configure dt budget).isCompleted = false ∧ next.elapsed + dt = next.elapsed := by
  intro next
  have helapsed : next.elapsed = sim.elapsed := hstill
  exact ⟨(isCompleted_configure_congr helapsed).trans hmore, by rw [helapsed, hstill]⟩

variable [Circular α]

/-- The simulations that come from a reachable world by ticks of any length, setting the
clock back, and changes of the world. -/
inductive Reachable : Simulation α → Prop where
  | started {w : World α} (h : w.Reachable) : Reachable (start w)
  | ticked {sim : Simulation α} (h : Reachable sim) (dt budget : α) :
      Reachable (sim.tick dt budget).1
  | rewound {sim : Simulation α} (h : Reachable sim) : Reachable sim.resetClock
  | turned {sim : Simulation α} {w : World α} (h : Reachable sim) (hworld : w.Reachable) :
      Reachable { sim with world := w }

/-- A tick of a given length is run within a given budget. -/
def Ticks (dt budget : α) (sim next : Simulation α) : Prop :=
  ∃ summary, sim.tick dt budget = (next, .ok (some summary))

/-- A tick is run that leaves the clock as it is. -/
def Stands (dt budget : α) (sim : Simulation α) : Prop :=
  ∃ next, Ticks dt budget sim next ∧ next.elapsed = sim.elapsed

theorem ticks_of_stepAgents (hcheck : checkTiming dt budget = .ok ())
    (hmore : (sim.configure dt budget).isCompleted = false) {world : World α} {activity : Activity}
    (hstep : sim.world.stepAgents = (world, .ok activity)) :
    Ticks dt budget sim
      ((sim.configure dt budget).commit world (sim.summarize dt world activity)) := by
  refine ⟨sim.summarize dt world activity, ?_⟩
  have houtcome := outcome_tick sim dt budget
  generalize sim.tick dt budget = result at houtcome ⊢
  cases houtcome with
  | refused h => exact absurd (hcheck.symm.trans h) (by simp)
  | completed _ hdone => exact absurd (hmore.symm.trans hdone) (by simp)
  | failed _ _ hfails => exact absurd (hstep.symm.trans hfails) (by simp)
  | ran _ _ hran =>
      obtain ⟨rfl, hactivity⟩ := Prod.mk.inj (hstep.symm.trans hran)
      obtain rfl := Except.ok.inj hactivity
      rfl

theorem Ticks.elapsed_eq (h : Ticks dt budget sim next) :
    (sim.configure dt budget).isCompleted = false ∧ next.elapsed = sim.elapsed + dt := by
  obtain ⟨summary, h⟩ := h
  have houtcome := outcome_tick sim dt budget
  rw [h] at houtcome
  cases houtcome with
  | ran _ hmore => exact ⟨hmore, rfl⟩

theorem Reachable.of_passed (h : Reachable sim)
    (hpassed : Relation.ReflTransGen (Ticks dt budget) sim later) : Reachable later := by
  induction hpassed with
  | refl => exact h
  | tail _ hticks ih =>
      obtain ⟨summary, hticks⟩ := hticks
      have hnext := ih.ticked dt budget
      rwa [hticks] at hnext

variable {β : Type} {gather : β → Summary α → β}

/-- A clock that stands still does so in all ticks to come, so the budget is never used
up. -/
theorem runFor_ne_completed (hmore : (sim.configure dt budget).isCompleted = false)
    (hstill : sim.elapsed + dt = sim.elapsed) (limit : Nat) (b : β) :
    (runFor gather dt budget limit b sim).ending ≠ .completed := by
  induction limit generalizing sim b with
  | zero => simp [Simulation.runFor]
  | succ limit ih =>
      have houtcome := outcome_tick sim dt budget
      rw [Simulation.runFor]
      generalize sim.tick dt budget = result at houtcome
      cases houtcome with
      | refused => simp
      | failed => simp
      | completed _ hdone => exact absurd (hmore.symm.trans hdone) (by simp)
      | @ran world activity =>
          obtain ⟨hmore, hstill⟩ := still_commit hmore hstill world activity
          exact ih hmore hstill _

theorem runFor_succ_of_ticks (h : Ticks dt budget sim next) (limit : Nat) (b : β) :
    ∃ b', runFor gather dt budget (limit + 1) b sim = runFor gather dt budget limit b' next := by
  obtain ⟨summary, h⟩ := h
  exact ⟨gather b summary, by rw [Simulation.runFor, h]⟩

/-- A run that comes to a tick that leaves the clock as it is does not use up its budget. -/
theorem runFor_ne_completed_of_stands (hpassed : Relation.ReflTransGen (Ticks dt budget) sim later)
    (hstands : Stands dt budget later) (limit : Nat) (b : β) :
    (runFor gather dt budget limit b sim).ending ≠ .completed := by
  induction hpassed using Relation.ReflTransGen.head_induction_on generalizing limit b with
  | refl =>
      obtain ⟨next, hticks, hstill⟩ := hstands
      obtain ⟨hmore, helapsed⟩ := hticks.elapsed_eq
      exact runFor_ne_completed hmore (helapsed.symm.trans hstill) limit b
  | head hticks _ ih =>
      cases limit with
      | zero => simp [Simulation.runFor]
      | succ limit =>
          obtain ⟨b', hrun⟩ := runFor_succ_of_ticks hticks limit b
          rw [hrun]
          exact ih limit b'

/-- If the clock stands still and no tick can change the world, the run goes on for ever. -/
theorem runFor_unfinished (hcheck : checkTiming dt budget = .ok ())
    (hmore : (sim.configure dt budget).isCompleted = false)
    (hstill : sim.elapsed + dt = sim.elapsed) {activity : Activity}
    (hstep : sim.world.stepAgents = (sim.world, .ok activity)) (limit : Nat) (b : β) :
    (runFor gather dt budget limit b sim).ending = .unfinished := by
  induction limit generalizing sim b with
  | zero => rfl
  | succ limit ih =>
      obtain ⟨b', hrun⟩ := runFor_succ_of_ticks (ticks_of_stepAgents hcheck hmore hstep) limit b
      obtain ⟨hmore, hstill⟩ := still_commit hmore hstill sim.world activity
      rw [hrun]
      exact ih hmore hstill hstep b'

end Run

variable {sim next : Simulation Float} {dt budget : Float}

/-- The clock is never set to anything below zero. -/
theorem Reachable.elapsed_nonneg (h : Reachable sim) : 0 ≤ sim.elapsed := by
  induction h with
  | started => exact Double.zero_le_zero
  | @ticked sim _ dt budget ih =>
      have houtcome := outcome_tick sim dt budget
      generalize sim.tick dt budget = result at houtcome
      cases houtcome with
      | refused => exact ih
      | completed => exact ih
      | failed => exact ih
      | ran hcheck =>
          obtain ⟨-, hpos⟩ := Scalar.isFinitePos_iff.mp (checkTiming_eq_ok_iff.mp hcheck).1
          change 0 ≤ sim.elapsed + dt
          rcases Double.add_eq_or_lt ih hpos with heq | hlt
          · rwa [heq]
          · exact Double.nonneg_of_lt ih hlt
  | rewound => exact Double.zero_le_zero
  | turned _ _ ih => exact ih

/-- A tick moves the clock on or leaves it as it is. -/
theorem Ticks.lt_or_eq (h : Ticks dt budget sim next) (hsim : 0 ≤ sim.elapsed) (hpos : 0 < dt) :
    sim.elapsed < next.elapsed ∨ next.elapsed = sim.elapsed := by
  rw [h.elapsed_eq.2]
  exact (Double.add_eq_or_lt hsim hpos).symm

theorem tolerance_pos : 0 < (tolerance : Float) := by decide +kernel

/-- A tick is run only if the clock stands before the end of the budget. -/
theorem Ticks.elapsed_lt (h : Ticks dt budget sim next) (hsim : 0 ≤ sim.elapsed) (hpos : 0 < dt)
    (hbudget : 0 ≤ budget) : sim.elapsed < budget := by
  have hle := Double.le_add_of_nonneg hsim (Double.mul_nonneg_of_pos tolerance_pos hpos)
  have hmore : ¬ budget ≤ sim.elapsed + tolerance * dt := of_decide_eq_false h.elapsed_eq.1
  have hsum := Double.nonneg_of_le hsim hle
  rw [Double.lt_iff_rank hsim hbudget]
  rw [Double.le_iff_rank hsim hsum] at hle
  rw [← Double.lt_iff_not_le hsum hbudget, Double.lt_iff_rank hsum hbudget] at hmore
  exact hle.trans_lt hmore

/-- A tick of the `2 ^ 53`-th part of the budget, or more, moves the clock on. -/
theorem Ticks.lt_of_le (h : Ticks dt budget sim next) (hsim : 0 ≤ sim.elapsed) (hpos : 0 < dt)
    (hbudget : 0 ≤ budget) (hfinite : budget.isFinite)
    (hle : Double.value budget ≤ 2 ^ 53 * Double.value dt) : sim.elapsed < next.elapsed := by
  refine (h.lt_or_eq hsim hpos).resolve_right fun hstill => ?_
  rw [h.elapsed_eq.2] at hstill
  have hlt := h.elapsed_lt hsim hpos hbudget
  have hless := Double.value_lt_value hsim hlt hfinite
  have hmore := Double.two_pow_mul_value_le hsim (Double.isFinite_of_lt hsim hlt) hpos hstill
  exact absurd (hless.trans_le (hle.trans hmore)) (lt_irrefl _)

section Moves

variable {β : Type} {gather : β → Summary Float → β}

/-- If every tick moves the clock on, a run ends: there are fewer than `2 ^ 64` doubles for
the clock to show. -/
theorem runFor_ne_unfinished (hsim : 0 ≤ sim.elapsed)
    (hmoves : ∀ later next, Relation.ReflTransGen (Ticks dt budget) sim later →
      Ticks dt budget later next → later.elapsed < next.elapsed) {limit : Nat}
    (hlimit : 2 ^ 64 ≤ limit + Double.rank sim.elapsed) (b : β) :
    (runFor gather dt budget limit b sim).ending ≠ .unfinished := by
  induction limit generalizing sim b with
  | zero =>
      have hlt := Double.rank_lt sim.elapsed
      omega
  | succ limit ih =>
      have houtcome := outcome_tick sim dt budget
      rw [Simulation.runFor]
      generalize htick : sim.tick dt budget = result at houtcome
      cases houtcome with
      | refused => simp
      | failed => simp
      | completed => simp
      | ran =>
          have hticks : Ticks dt budget sim _ := ⟨_, htick⟩
          have hlt := hmoves sim _ .refl hticks
          have hnext := Double.nonneg_of_lt hsim hlt
          refine ih hnext (fun later next hpassed => hmoves later next (.head hticks hpassed)) ?_ _
          rw [Double.lt_iff_rank hsim hnext] at hlt
          omega

end Moves

theorem run_ne_unfinished (hsim : 0 ≤ sim.elapsed)
    (hmoves : ∀ later next, Relation.ReflTransGen (Ticks dt budget) sim later →
      Ticks dt budget later next → later.elapsed < next.elapsed) :
    (sim.run dt budget).ending ≠ .unfinished :=
  runFor_ne_unfinished hsim hmoves (Nat.le_add_right _ _) 0

/-- What comes of the clock of a reachable simulation, and of its runs. Each tick adds its
length to the clock, which moves it on or leaves it as it is. A run that does not come to
an end has come to a tick of the second kind; a run that has come to one never uses up its
budget, however long it goes on. There is none if the budget is at most `2 ^ 53` times the
length of a tick. -/
theorem run_ends_unless_clock_stands (h : Reachable sim) (hcheck : checkTiming dt budget = .ok ()) :
    (∀ next, Ticks dt budget sim next → next.elapsed = sim.elapsed + dt ∧
      (sim.elapsed < next.elapsed ∨ next.elapsed = sim.elapsed)) ∧
    ((sim.run dt budget).ending = .unfinished →
      ∃ later, Relation.ReflTransGen (Ticks dt budget) sim later ∧ Stands dt budget later) ∧
    (∀ later, Relation.ReflTransGen (Ticks dt budget) sim later → Stands dt budget later →
      ∀ limit count : Nat, (sim.runFor (fun count _ => count + 1) dt budget limit count).ending ≠
        .completed) ∧
    (Double.value budget ≤ 2 ^ 53 * Double.value dt →
      (∀ next, Ticks dt budget sim next → sim.elapsed < next.elapsed) ∧
      (sim.run dt budget).ending ≠ .unfinished) := by
  obtain ⟨hdt, hbudget⟩ := checkTiming_eq_ok_iff.mp hcheck
  obtain ⟨-, hpos⟩ := Scalar.isFinitePos_iff.mp hdt
  obtain ⟨hfinite, hnonneg⟩ := Scalar.isFiniteNonneg_iff.mp hbudget
  refine ⟨fun next hticks => ⟨hticks.elapsed_eq.2, hticks.lt_or_eq h.elapsed_nonneg hpos⟩, ?_,
    fun later hpassed hstands => runFor_ne_completed_of_stands hpassed hstands, fun hle => ?_⟩
  · intro hunfinished
    by_contra hmoves
    refine run_ne_unfinished h.elapsed_nonneg (fun later next hpassed hticks => ?_) hunfinished
    exact (hticks.lt_or_eq (h.of_passed hpassed).elapsed_nonneg hpos).resolve_right
      fun hstill => hmoves ⟨later, hpassed, next, hticks, hstill⟩
  · have hmoves {sim next : Simulation Float} (h : Reachable sim)
        (hticks : Ticks dt budget sim next) : sim.elapsed < next.elapsed :=
      hticks.lt_of_le h.elapsed_nonneg hpos hnonneg hfinite hle
    exact ⟨fun next => hmoves h, run_ne_unfinished h.elapsed_nonneg fun later next hpassed =>
      hmoves (h.of_passed hpassed)⟩

/-- A world without agents. -/
def nobody : World Float := ⟨.default, .ofSeed 3, .empty, []⟩

theorem reachable_nobody : nobody.Reachable := @World.Reachable.created Float _ _ .default 3 _ rfl

/-- A simulation whose clock one tick has set to `2 ^ 53`. -/
def late : Simulation Float := ((start nobody).tick 9007199254740992 9007199254740994).1

theorem reachable_late : Reachable late := (Reachable.started reachable_nobody).ticked _ _

theorem stepAgents_late : late.world.stepAgents = (late.world, .ok ⟨0, 0, 0⟩) := by
  have hworld : late.world = nobody := rfl
  rw [hworld]
  rfl

theorem elapsed_late : late.elapsed + 1 = late.elapsed := rfl

/-- A run from the start ends if there are to be six ticks. With the clock at `2 ^ 53`,
ticks of length 1 do not move it, and a run does not use up a budget that is left. -/
theorem run_ends_unless_clock_stands_late :
    ((start nobody).run 1 6).ending ≠ .unfinished ∧
    ∀ limit count : Nat,
      (late.runFor (fun count _ => count + 1) 1 9007199254740994 limit count).ending ≠
        .completed := by
  have hsix : Double.parts 6 = .finite .positive (3 * 2 ^ 51) (-50) (by decide) := rfl
  have hone : Double.parts 1 = .finite .positive (2 ^ 52) (-52) (by decide) := rfl
  have hvalue : Double.value 6 ≤ 2 ^ 53 * Double.value 1 := by
    rw [Double.value_finite hsix, Double.value_finite hone]
    norm_num
  have hcheck : checkTiming (1 : Float) 6 = .ok () := rfl
  have hlate : checkTiming (1 : Float) 9007199254740994 = .ok () := rfl
  have hstands : Stands 1 9007199254740994 late :=
    ⟨_, ticks_of_stepAgents hlate (by decide +kernel) stepAgents_late, elapsed_late⟩
  exact ⟨((run_ends_unless_clock_stands (.started reachable_nobody) hcheck).2.2.2 hvalue).2,
    (run_ends_unless_clock_stands reachable_late hlate).2.2.1 late .refl hstands⟩

/-- With the clock at `2 ^ 53`, which one tick can set it to, a tick of length 1 does not
move it on, and a run of such ticks goes on for ever. -/
theorem run_goes_on_for_ever :
    Reachable late ∧ checkTiming (1 : Float) 9007199254740994 = .ok () ∧
    (∃ next, Ticks 1 9007199254740994 late next ∧ ¬ late.elapsed < next.elapsed) ∧
    ∀ limit : Nat, (late.runFor (fun count _ => count + 1) 1 9007199254740994 limit 0).ending =
      .unfinished := by
  have hmore : (late.configure 1 9007199254740994).isCompleted = false := by decide +kernel
  refine ⟨reachable_late, rfl, ⟨_, ticks_of_stepAgents rfl hmore stepAgents_late, ?_⟩, fun limit =>
    runFor_unfinished rfl hmore elapsed_late stepAgents_late limit 0⟩
  decide +kernel

end Simulation

end Flock
