import Flock.Proofs.Rational
import Flock.Proofs.Simulation.Resume

/-!
# How many ticks a run takes

With rational numbers for times nothing is rounded, and the clock after a number of ticks is
the clock before them and as many tick lengths. So it is known beforehand how many ticks a
budget leaves room for: as many tick lengths as fit into the time that is left, the last one
begun also if it is not used up, unless no more of it is needed than the tolerance
(`Simulation.ticksLeft`). Each tick uses up one of them, and a run in which no agent fails
uses up all (`Simulation.run_takes_ticksLeft`).
-/

namespace Flock

namespace Simulation

/-- The number of ticks that a budget leaves room for, with the clock at a given time. -/
def ticksLeft (dt budget elapsed : ℚ) : ℕ := ⌈(budget - elapsed) / dt - 1 / 10 ^ 9⌉₊

variable {sim : Simulation ℚ} {dt budget elapsed : ℚ}

theorem tolerance_rat : (tolerance : ℚ) = 1 / 10 ^ 9 := by
  change ((1 : ℤ) : ℚ) / ((1000000000 : ℤ) : ℚ) = 1 / 10 ^ 9
  norm_num

/-- A budget is used up if no more than the tolerance is left of it. -/
theorem isCompleted_configure_rat :
    (sim.configure dt budget).isCompleted = decide (budget ≤ sim.elapsed + 1 / 10 ^ 9 * dt) := by
  rw [← tolerance_rat]
  rfl

/-- A budget leaves room for a tick before the last of its tolerance. -/
theorem ticksLeft_pos_iff (hdt : 0 < dt) :
    0 < ticksLeft dt budget elapsed ↔ elapsed < budget - 1 / 10 ^ 9 * dt := by
  rw [ticksLeft, Nat.ceil_pos, sub_pos, lt_div_iff₀ hdt]
  constructor <;> intro h <;> linarith

theorem isCompleted_iff_ticksLeft (hdt : 0 < dt) :
    (sim.configure dt budget).isCompleted ↔ ticksLeft dt budget sim.elapsed = 0 := by
  rw [isCompleted_configure_rat, decide_eq_true_iff, ← sub_le_iff_le_add, ← not_lt,
    ← ticksLeft_pos_iff hdt, Nat.pos_iff_ne_zero, not_not]

/-- Each tick takes one of those that there was room for. -/
theorem ticksLeft_add (hdt : 0 < dt) (budget elapsed : ℚ) (k : ℕ) :
    ticksLeft dt budget (elapsed + k * dt) = ticksLeft dt budget elapsed - k := by
  have hrest : (budget - (elapsed + k * dt)) / dt - 1 / 10 ^ 9 =
      (budget - elapsed) / dt - 1 / 10 ^ 9 - k := by
    field_simp
    ring
  rw [ticksLeft, ticksLeft, hrest, Nat.ceil_sub_natCast]

theorem cast_ticksLeft (dt budget elapsed : ℚ) :
    (ticksLeft dt budget elapsed : ℤ) = max 0 ⌈(budget - elapsed) / dt - 1 / 10 ^ 9⌉ := by
  rw [ticksLeft, ← Int.ceil_toNat, Int.toNat_eq_max, max_comm]

/-- A budget of a whole number of tick lengths leaves room for as many ticks. -/
theorem ticksLeft_of_multiple (hdt : 0 < dt) (k : ℕ) : ticksLeft dt (k * dt) 0 = k := by
  rw [ticksLeft, sub_zero, mul_div_cancel_right₀ _ hdt.ne']
  cases k with
  | zero => exact Nat.ceil_eq_zero.mpr (by norm_num)
  | succ k =>
      rw [Nat.ceil_eq_iff (Nat.succ_ne_zero k)]
      push_cast
      constructor <;> norm_num
      linarith

/-- If there is more left over than the tolerance, there is room for one tick more. -/
theorem ticksLeft_of_remainder (hdt : 0 < dt) (k : ℕ) {rest : ℚ} (hmore : 1 / 10 ^ 9 * dt < rest)
    (hless : rest ≤ dt) : ticksLeft dt (k * dt + rest) 0 = k + 1 := by
  have hlow : 1 / 10 ^ 9 < rest / dt := (lt_div_iff₀ hdt).mpr hmore
  have hhigh : rest / dt ≤ 1 := (div_le_one hdt).mpr hless
  rw [ticksLeft, sub_zero, add_div, mul_div_cancel_right₀ _ hdt.ne',
    Nat.ceil_eq_iff (Nat.succ_ne_zero k)]
  push_cast
  constructor <;> norm_num at * <;> linarith

theorem checkTiming_rat (hdt : 0 < dt) (hbudget : 0 ≤ budget) : checkTiming dt budget = .ok () := by
  rw [checkTiming_eq_ok_iff, Scalar.isFinitePos_rat_iff]
  refine ⟨hdt, ?_⟩
  simpa [Scalar.isFiniteNonneg, Scalar.isFinite, Scalar.zero_rat] using hbudget

section Run

variable [Circular ℚ]

/-- What a run has come to when it is stopped after a number of ticks, if no agent fails: it
has run these ticks, or those for which there was room, each of which has moved the clock on by
its length. -/
theorem runUpTo_rat (hdt : 0 < dt) (hbudget : 0 ≤ budget) (sim : Simulation ℚ)
    (hfine : ∀ limit fault, (sim.runUpTo limit dt budget).ending ≠ .failed fault) (limit : ℕ) :
    let room := ticksLeft dt budget sim.elapsed
    let part := sim.runUpTo limit dt budget
    part.gathered = min limit room ∧
      part.simulation.elapsed = sim.elapsed + part.gathered * dt ∧
      part.simulation.tickCount = sim.tickCount + part.gathered ∧
      (part.ending = .completed ↔ room < limit) := by
  induction limit generalizing sim with
  | zero => simp [runUpTo, runFor]
  | succ limit ih =>
      have hcheck := checkTiming_rat hdt hbudget
      have houtcome := outcome_tick sim dt budget
      generalize htick : sim.tick dt budget = result at houtcome
      cases houtcome with
      | refused hrefused => exact absurd (hcheck.symm.trans hrefused) (by simp)
      | failed =>
          exact absurd (congrArg Run.ending (runUpTo_of_failed htick 0)) (hfine 1 _)
      | completed _ hdone =>
          rw [isCompleted_iff_ticksLeft hdt] at hdone
          rw [runUpTo_of_completed htick]
          simp [hdone, configure]
      | @ran world activity _ hmore =>
          have hpos : 0 < ticksLeft dt budget sim.elapsed := by
            rw [Nat.pos_iff_ne_zero, ne_eq, ← isCompleted_iff_ticksLeft hdt, hmore]
            exact Bool.false_ne_true
          have hrun (limit : ℕ) := runUpTo_of_ran htick limit
          have helapsed : ((sim.configure dt budget).commit world
              (sim.summarize dt world activity)).elapsed = sim.elapsed + (1 : ℕ) * dt := by
            rw [Nat.cast_one, one_mul]
            rfl
          have hcount : ((sim.configure dt budget).commit world
            (sim.summarize dt world activity)).tickCount = sim.tickCount + 1 := rfl
          generalize (sim.configure dt budget).commit world (sim.summarize dt world activity) = next
            at hrun helapsed hcount
          obtain ⟨hgathered, hclock, hticks, hending⟩ := ih next fun limit fault => by
            have hnot := hfine (limit + 1) fault
            rwa [hrun, Run.ending_after] at hnot
          rw [helapsed, ticksLeft_add hdt] at hgathered hending
          simp only [hrun, Run.gathered_after, Run.ending_after, hending]
          refine ⟨by omega, ?_, ?_, by omega⟩
          · change (next.runUpTo limit dt budget).simulation.elapsed = _
            rw [hclock, helapsed]
            push_cast
            ring
          · change (next.runUpTo limit dt budget).simulation.tickCount = _
            omega

theorem isCompleted_of_tick {next : Simulation ℚ} (h : sim.tick dt budget = (next, .ok none)) :
    next.isCompleted := by
  have houtcome := outcome_tick sim dt budget
  rw [h] at houtcome
  cases houtcome with
  | completed _ hdone => exact hdone

/-- If no agent fails, a run comes to its end with the last tick that there is room for, and
however long it might have gone on, it leaves the same behind. -/
theorem exists_runUpTo_eq (hdt : 0 < dt) (hbudget : 0 ≤ budget) (sim : Simulation ℚ)
    (hfine : ∀ limit fault, (sim.runUpTo limit dt budget).ending ≠ .failed fault) :
    let room := ticksLeft dt budget sim.elapsed
    ∃ final : Simulation ℚ,
      (∀ limit, room < limit → sim.runUpTo limit dt budget = ⟨final, room, .completed⟩) ∧
      final.tick dt budget = (final, .ok none) ∧
      final.elapsed = sim.elapsed + room * dt ∧ final.tickCount = sim.tickCount + room := by
  intro room
  have hcheck := checkTiming_rat hdt hbudget
  obtain ⟨hgathered, helapsed, hticks, hending⟩ := runUpTo_rat hdt hbudget sim hfine (room + 1)
  have hcompleted := hending.mpr (Nat.lt_succ_self room)
  have hidle := tick_of_completed hcheck sim hcompleted
  have hunder : (sim.runUpTo (room + 1) dt budget).ending ≠ .unfinished := by
    rw [hcompleted]
    simp
  have hlater := runUpTo_of_later (fun _ hle => hle) hcheck hcheck sim hunder
  rw [Nat.min_eq_right (Nat.le_succ room)] at hgathered
  generalize sim.runUpTo (room + 1) dt budget = part at *
  obtain ⟨final, gathered, ending⟩ := part
  obtain rfl : gathered = room := hgathered
  obtain rfl : ending = .completed := hcompleted
  refine ⟨final, fun limit hlimit => ?_, hidle, helapsed, hticks⟩
  obtain ⟨more, rfl⟩ := Nat.exists_eq_add_of_lt hlimit
  rw [hlater more, resume_of_completed rfl, runUpTo_of_completed hidle]
  rfl

/-- How many ticks a run takes. If no agent fails, there are as many as the time left in the
budget is worth, counted in tick lengths, rounded up, with a tolerance of one in `10 ^ 9`, and
none if it is worth less than none. Each of them starts before the last of the tolerance
begins. In the end the clock has been moved on by all of them, the budget is used up, and
another run has nothing to do. So with the clock at zero a budget of `k` tick lengths is worth
`k` ticks, and one more if there is a rest above the tolerance. -/
theorem run_takes_ticksLeft (sim : Simulation ℚ) (hdt : 0 < dt) (hbudget : 0 ≤ budget)
    (hfine : ∀ limit fault, (sim.runUpTo limit dt budget).ending ≠ .failed fault) :
    ∃ (count : ℕ) (final : Simulation ℚ),
      (count : ℤ) = max 0 ⌈(budget - sim.elapsed) / dt - 1 / 10 ^ 9⌉ ∧
      (∀ limit, count < limit → sim.runUpTo limit dt budget = ⟨final, count, .completed⟩) ∧
      (count < 2 ^ 64 → sim.run dt budget = ⟨final, count, .completed⟩) ∧
      (∀ k < count, (sim.runUpTo k dt budget).gathered = k ∧
        (sim.runUpTo k dt budget).simulation.elapsed = sim.elapsed + k * dt ∧
        sim.elapsed + k * dt < budget - 1 / 10 ^ 9 * dt) ∧
      final.elapsed = sim.elapsed + count * dt ∧ final.tickCount = sim.tickCount + count ∧
      final.isCompleted ∧ final.run dt budget = ⟨final, 0, .completed⟩ ∧
      (sim.elapsed = 0 →
        (∀ k : ℕ, budget = k * dt → count = k) ∧
        ∀ (k : ℕ) (rest : ℚ), 1 / 10 ^ 9 * dt < rest → rest ≤ dt → budget = k * dt + rest →
          count = k + 1) := by
  let count := ticksLeft dt budget sim.elapsed
  obtain ⟨final, hruns, hidle, helapsed, hticks⟩ := exists_runUpTo_eq hdt hbudget sim hfine
  refine ⟨count, final, cast_ticksLeft _ _ _, hruns, fun hlimit => hruns tickLimit hlimit,
    fun k hk => ?_, helapsed, hticks, isCompleted_of_tick hidle, runUpTo_of_completed hidle _,
    fun hfresh => ⟨?_, ?_⟩⟩
  · obtain ⟨hk', hclock, -, -⟩ := runUpTo_rat hdt hbudget sim hfine k
    have hgathered : (sim.runUpTo k dt budget).gathered = k := hk'.trans (Nat.min_eq_left hk.le)
    rw [hgathered] at hclock
    refine ⟨hgathered, hclock, ?_⟩
    rw [← ticksLeft_pos_iff hdt, ticksLeft_add hdt]
    exact Nat.sub_pos_of_lt hk
  · rintro k rfl
    exact (congrArg _ hfresh).trans (ticksLeft_of_multiple hdt k)
  · rintro k rest hmore hless rfl
    exact (congrArg _ hfresh).trans (ticksLeft_of_remainder hdt k hmore hless)

/-- A world that its ticks leave as it is lets no run fail. -/
theorem runUpTo_ne_failed {w : World ℚ} {activity : Activity}
    (hstill : w.stepAgents = (w, .ok activity)) (hdt : 0 < dt) (hbudget : 0 ≤ budget)
    (hworld : sim.world = w) (limit : ℕ) (fault : Fault ℚ) :
    (sim.runUpTo limit dt budget).ending ≠ .failed fault := by
  induction limit generalizing sim with
  | zero => simp [runUpTo, runFor]
  | succ limit ih =>
      have htick := tick_of_checkTiming (checkTiming_rat hdt hbudget) sim
      rw [hworld, hstill] at htick
      split at htick
      · simp [runUpTo_of_completed htick]
      · rw [runUpTo_of_ran htick, Run.ending_after]
        exact ih rfl

end Run

/-- A world with one agent that has nothing to do. -/
def loner : World ℚ := World.add ⟨.default, .ofSeed 3, .empty, []⟩ (.atPoint .origin "")

/-- After a tick of length `1 / 3`, a budget of `5 / 2` leaves room for three ticks of length
1, the last of which ends at `10 / 3`. -/
theorem run_takes_ticksLeft_loner :
    letI := Circular.quarterTurns
    ∃ final : Simulation ℚ,
      ((start loner).tick (1 / 3) 1).1.run 1 (5 / 2) = ⟨final, 3, .completed⟩ ∧
      final.elapsed = 10 / 3 ∧ final.tickCount = 4 := by
  let _ := Circular.quarterTurns
  have hstill : loner.stepAgents = (loner, .ok ⟨0, 0, 0⟩) := rfl
  have hdt : (0 : ℚ) < 1 := by norm_num
  have hbudget : (0 : ℚ) ≤ 5 / 2 := by norm_num
  obtain ⟨hclock, hticked, hworld⟩ : ((start loner).tick (1 / 3) 1).1.elapsed = 1 / 3 ∧
      ((start loner).tick (1 / 3) 1).1.tickCount = 1 ∧
      ((start loner).tick (1 / 3) 1).1.world = loner := by
    decide +kernel
  obtain ⟨count, final, hcount, -, hrun, -, helapsed, hticks, -⟩ :=
    run_takes_ticksLeft ((start loner).tick (1 / 3) 1).1 hdt hbudget
      (runUpTo_ne_failed hstill hdt hbudget hworld)
  rw [hclock] at hcount helapsed
  rw [hticked] at hticks
  have hceil : ⌈((5 / 2 - 1 / 3) / 1 - 1 / 10 ^ 9 : ℚ)⌉ = 3 := by
    rw [Int.ceil_eq_iff]
    norm_num
  obtain rfl : count = 3 := by
    rw [hceil] at hcount
    omega
  refine ⟨final, hrun (by norm_num), ?_, hticks⟩
  rw [helapsed]
  norm_num

end Simulation

end Flock
