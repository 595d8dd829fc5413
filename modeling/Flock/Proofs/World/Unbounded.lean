import Flock.Proofs.Double.Width
import Flock.Proofs.World.Checked
import Flock.Proofs.World.Words

/-!
# Ranges that are too wide

What is given to a world is checked to be finite, and then random places and targets are
taken from ranges between finite ends. The width of such a range need not be finite, and
then there is no sample to be had from it.

There is one if the ends are below `2 ^ 1023` in magnitude (`Program.Moderate`); for
random places and for following no greater bound would do
(`World.spawnRandom_eq_error_iff`, `Action.isUnbounded_follow_iff`). In a reachable world
it is known from the settings and from the actions that the agents come to which samples
cannot be had, and a tick fails for nothing else but these and the want of a heading; in
checked arithmetic, it may overflow besides (`World.halts_of_reachable`).
-/

namespace Flock

namespace Scalar

variable {a b : Float}

/-- The width of a range is finite if its ends are not too great. -/
theorem isFinite_width (ha : a.abs < Double.greatestPower) (hb : b.abs < Double.greatestPower) :
    isFinite (width a b) := by
  unfold width
  split
  · exact Double.isFinite_sub hb ha
  · exact Double.isFinite_sub ha hb

end Scalar

namespace Action

/-- An action can have its samples if its ranges end below `2 ^ 1023`. -/
theorem isUnbounded_of_moderate {a : Action Float}
    (h : ∀ r ∈ a.ranges, r.1.abs < Double.greatestPower ∧ r.2.abs < Double.greatestPower) :
    a.isUnbounded = false := by
  rw [isUnbounded, List.any_eq_false]
  intro r hr
  simp [Scalar.isFinite_width (h r hr).1 (h r hr).2]

/-- Following is possible within a radius below `2 ^ 1023`, and within no other. -/
theorem isUnbounded_follow_iff {label : String} {radius speed : Float}
    (h : Scalar.isFiniteNonneg radius) :
    (follow label radius speed).isUnbounded ↔ ¬ radius < Double.greatestPower := by
  obtain ⟨hfinite, h0⟩ := Scalar.isFiniteNonneg_iff.mp h
  have hwidth : Scalar.width (-radius) radius = radius - -radius := if_pos (Double.neg_le_self h0)
  have hiff := Double.isFinite_sub_neg_iff h0 hfinite
  simp only [isUnbounded, ranges, List.any_cons, List.any_nil, Bool.or_false, Bool.or_self,
    Bool.and_eq_true, Bool.not_eq_true', hwidth]
  constructor
  · rintro ⟨-, hwide⟩ hlt
    exact Bool.eq_false_iff.mp hwide (hiff.mpr hlt)
  · intro hge
    refine ⟨?_, Bool.eq_false_iff.mpr fun hwide => hge (hiff.mp hwide)⟩
    rw [Scalar.differ_double, Bool.not_eq_true', Bool.eq_false_iff]
    intro hsame
    have hzero := Double.beq_iff.mp (Double.neg_beq_iff.mp hsame)
    exact hge (Double.lt_greatestPower_of_le_zero h0 hzero.1)

end Action

/-- The ranges that the actions of a program sample from end below `2 ^ 1023` in
magnitude. -/
def Program.Moderate (p : Program Float) : Prop :=
  ∀ id a, p.node? id = some (.action a) →
    ∀ r ∈ a.ranges, r.1.abs < Double.greatestPower ∧ r.2.abs < Double.greatestPower

section Programs

variable {α : Type} [Scalar α] [Circular α]

theorem Agent.program_step (id : AgentId) (view : Surroundings α) (agent : Agent α)
    (words : WordStream) :
    (agent.step id view words).1.execution.map (·.program) = agent.execution.map (·.program) := by
  cases hexecution : agent.execution with
  | none => simp [step, hexecution]
  | some execution =>
      simp only [step, hexecution]
      split <;> rfl

namespace World

omit [Scalar α] [Circular α] in
/-- The programs of the agents, in the order of arrival. -/
def programs (w : World α) : List (Option (Program α)) :=
  w.agents.entries.map fun e => e.2.execution.map (·.program)

/-- A tick leaves its program to every agent. -/
theorem programs_stepAgents (w : World α) : w.stepAgents.1.programs = w.programs := by
  cases h : w.stepAgents.2 with
  | error fault => rw [(stepAgents_eq_error h).1]
  | ok activity =>
      obtain ⟨v, -, -, hstep, -⟩ := stepAgents_eq_ok h w.words
      rw [hstep]
      refine List.ext_getElem? fun i => ?_
      simp [programs, Staging.getElem?_copies, Function.comp_def, Agent.program_step]

end World

end Programs

namespace World

variable {w : World Float}

/-- Every agent runs a moderate program, if any. -/
def Moderate (w : World Float) : Prop := ∀ p, some p ∈ w.programs → p.Moderate

theorem Moderate.stepAgents (h : w.Moderate) : w.stepAgents.1.Moderate := by
  rwa [Moderate, programs_stepAgents]

/-- The action that an agent of a moderate world comes to can have its samples. -/
theorem Moderate.isUnbounded_eq_false {inRegion : Point Float → String → Bool}
    {e : AgentId × Agent Float} {node : Nat} {a : Action Float} (h : w.Moderate)
    (he : e ∈ w.agents.entries) (hdue : e.2.due? inRegion = some (node, a)) :
    a.isUnbounded = false := by
  obtain ⟨execution, hexecution, hnode⟩ := Agent.node?_of_due? hdue
  refine Action.isUnbounded_of_moderate (h execution.program ?_ node a hnode)
  exact List.mem_map.mpr ⟨e, he, by rw [hexecution]; rfl⟩

/-- A random place can be had if the extent is below `2 ^ 1023`, and only then. -/
theorem spawnRandom_eq_error_iff {fault : Fault Float}
    (h : Scalar.isFiniteNonneg w.settings.spawnExtent) :
    w.spawnRandom = .error fault ↔
      fault = .unboundedRange ∧ ¬ w.settings.spawnExtent < Double.greatestPower := by
  obtain ⟨hfinite, h0⟩ := Scalar.isFiniteNonneg_iff.mp h
  have hiff := Double.isFinite_sub_neg_iff h0 hfinite
  by_cases hpos : Scalar.zero < w.settings.spawnExtent
  · cases hwidth : Scalar.isFinite (w.settings.spawnExtent - -w.settings.spawnExtent) with
    | false =>
        have hwide : ¬ w.settings.spawnExtent < Double.greatestPower := fun hlt =>
          Bool.eq_false_iff.mp hwidth (hiff.mpr hlt)
        have hfails : w.spawnRandom = .error .unboundedRange := by
          simp only [spawnRandom, randomPlace, if_pos hpos, WordStream.sampleRange, hwidth]
          rfl
        rw [hfails, Except.error.injEq, and_iff_left hwide, eq_comm]
    | true =>
        have hspawns : ∃ next, w.spawnRandom = .ok next := by
          simp only [spawnRandom, randomPlace, if_pos hpos, WordStream.sampleRange, hwidth]
          exact ⟨_, rfl⟩
        obtain ⟨next, hspawns⟩ := hspawns
        simp [hspawns, hiff.mp hwidth]
  · have hlt : w.settings.spawnExtent < Double.greatestPower :=
      Double.lt_greatestPower_of_le_zero h0
        (not_not.mp fun hle => hpos ((Double.lt_iff_not_le Double.zero_le_zero h0).mpr hle))
    have hspawns : w.spawnRandom = .ok (w.add (.atPoint .origin "")) := by
      simp only [spawnRandom, randomPlace, if_neg hpos]
      rfl
    simp [hspawns, hlt]

/-- A tick misses a sample if an agent that no failing one stands in front of comes to an
action that cannot have its samples. -/
theorem stepAgents_eq_unboundedRange_iff (h : Reachable w) :
    w.stepAgents.2 = .error .unboundedRange ↔ ∃ front e rest node a,
      w.agents.entries = front ++ e :: rest ∧
        (∀ other ∈ front, other.2.fault? w.inRegion = none) ∧
        e.2.due? w.inRegion = some (node, a) ∧ a.isUnbounded := by
  obtain ⟨v, hview, hshows⟩ := View.exists_shows h.isFinitePos_cellSize
  rw [stepAgents_of_view hview, stepAgainst_eq_error_iff, hshows.inRegion_eq,
    List.findSome?_eq_some_iff]
  simp only [Agent.fault?_eq_unboundedRange_iff]
  constructor
  · rintro ⟨front, e, rest, hentries, ⟨node, a, hdue, hwide⟩, hfront⟩
    exact ⟨front, e, rest, node, a, hentries, hfront, hdue, hwide⟩
  · rintro ⟨front, e, rest, node, a, hentries, hfront, hdue, hwide⟩
    exact ⟨front, e, rest, hentries, ⟨node, a, hdue, hwide⟩, hfront⟩

/-- A reachable world can be viewed, so a tick of it fails only where an agent does. -/
theorem ofStep_of_stepAgents {fault : Fault Float} (h : Reachable w)
    (hfault : w.stepAgents.2 = .error fault) : fault.OfStep := by
  obtain ⟨v, hview, -⟩ := View.exists_shows h.isFinitePos_cellSize
  rw [stepAgents_of_view hview, stepAgainst_eq_error_iff] at hfault
  obtain ⟨e, -, hagent⟩ := List.exists_of_findSome?_eq_some hfault
  exact Agent.step_eq_error (Agent.step_of_fault? hagent e.1 w.words)

theorem Reachable.stepAgents_iterate (h : Reachable w) (n : Nat) :
    Reachable ((fun world => world.stepAgents.1)^[n] w) := by
  induction n generalizing w with
  | zero => exact h
  | succ n ih =>
      rw [Function.iterate_succ_apply]
      exact ih (h.changed (.stepped w))

theorem Moderate.stepAgents_iterate (h : w.Moderate) (n : Nat) :
    ((fun world => world.stepAgents.1)^[n] w).Moderate := by
  induction n generalizing w with
  | zero => exact h
  | succ n ih =>
      rw [Function.iterate_succ_apply]
      exact ih h.stepAgents

/-- A tick of a moderate world does not miss a sample. -/
theorem Moderate.stepAgents_ne_unboundedRange (hmoderate : w.Moderate) (h : Reachable w) :
    w.stepAgents.2 ≠ .error .unboundedRange := by
  rw [ne_eq, stepAgents_eq_unboundedRange_iff h]
  rintro ⟨front, e, rest, node, a, hentries, -, hdue, hwide⟩
  have he : e ∈ w.agents.entries := hentries ▸ List.mem_append_right _ List.mem_cons_self
  exact Bool.eq_false_iff.mp (hmoderate.isUnbounded_eq_false he hdue) hwide

/-- Which samples cannot be had in a reachable world: random places, if the extent is too
great, and those of the action that an agent comes to before any other agent fails. All
other failures of a tick are for want of a heading. In checked arithmetic, a tick is the same
unless it overflows, which it does at the step of an agent that closes too many loops or
searches too far from the axes, if nothing ends the tick before. Where all programs are
moderate, no tick ever misses a sample, and none overflows that finds the world compact. -/
theorem halts_of_reachable (h : Reachable w) :
    (∀ fault, w.spawnRandom = .error fault ↔
      fault = .unboundedRange ∧ ¬ w.settings.spawnExtent < Double.greatestPower) ∧
    (∀ fault, w.stepAgents.2 = .error fault → fault = .noHeading ∨ fault = .unboundedRange) ∧
    (w.stepAgents.2 = .error .unboundedRange ↔ ∃ front e rest node a,
      w.agents.entries = front ++ e :: rest ∧
        (∀ other ∈ front, other.2.fault? w.inRegion = none) ∧
        e.2.due? w.inRegion = some (node, a) ∧ a.isUnbounded) ∧
    (w.stepAgentsChecked = none ∨ w.stepAgentsChecked = some w.stepAgents) ∧
    (w.stepAgentsChecked = none ↔ ∃ front e rest, w.agents.entries = front ++ e :: rest ∧
      (∀ other ∈ front, other.2.fault? w.inRegion = none ∧ ¬ w.StepOverflows other) ∧
        w.StepOverflows e) ∧
    ∀ n : Nat,
      let next := (fun world => world.stepAgents.1)^[n] w
      (w.Moderate → next.stepAgents.2 ≠ .error .unboundedRange) ∧
        (next.Compact → next.stepAgentsChecked = some next.stepAgents) := by
  refine ⟨fun _ => spawnRandom_eq_error_iff h.isFiniteNonneg_spawnExtent,
    fun _ => ofStep_of_stepAgents h, stepAgents_eq_unboundedRange_iff h,
    stepAgentsChecked_eq_or w, stepAgentsChecked_eq_none_iff h, fun n => ?_⟩
  have hnext := h.stepAgents_iterate n
  exact ⟨fun hmoderate => (hmoderate.stepAgents_iterate n).stepAgents_ne_unboundedRange hnext,
    fun hcompact => hcompact.stepAgentsChecked_eq hnext⟩

/-- An agent at the origin that is to follow within a radius. -/
def loneFollower (radius : Float) : World Float :=
  (World.add ⟨.default, .ofSeed 3, .empty, []⟩ (.atPoint .origin "x")).updateAgent ⟨1, 0⟩
    (·.bind ⟨#[.action (.follow "x" radius 1)], [0]⟩)

theorem reachable_loneFollower (radius : Float) : Reachable (loneFollower radius) := by
  have hstart : Reachable (⟨.default, .ofSeed 3, .empty, []⟩ : World Float) :=
    @Reachable.created Float _ _ .default 3 _ rfl
  exact (hstart.changed (.spawned (p := .origin) rfl)).changed (.updated _ _ _)

/-- Within a radius of 5 the agent never misses a sample, and its first tick does not overflow.
Within `2 ^ 1023` it misses one at once. -/
theorem halts_of_reachable_loneFollower :
    (Reachable (loneFollower 5) ∧
      (∀ n : Nat, ((fun world => world.stepAgents.1)^[n] (loneFollower 5)).stepAgents.2 ≠
        .error .unboundedRange) ∧
      (loneFollower 5).stepAgentsChecked = some (loneFollower 5).stepAgents) ∧
    Reachable (loneFollower Double.greatestPower) ∧
      (loneFollower Double.greatestPower).stepAgents.2 = .error .unboundedRange := by
  have hmoderate : (loneFollower 5).Moderate := by
    intro p hp id a hnode r hr
    obtain rfl := Option.some.inj (List.mem_singleton.mp hp)
    obtain ⟨hid, hnode⟩ := Array.getElem?_eq_some_iff.mp hnode
    obtain rfl := Nat.lt_one_iff.mp hid
    obtain rfl := (Node.action.inj hnode).symm
    obtain rfl | rfl : r = (-5, 5) ∨ r = (-5, 5) := by simpa [Action.ranges] using hr
    all_goals decide +kernel
  have hcompact : (loneFollower 5).Compact := by
    refine ⟨by decide +kernel, fun e he execution hexecution => ?_⟩
    obtain rfl := List.mem_singleton.mp he
    obtain rfl := Option.some.inj hexecution
    decide
  obtain ⟨-, -, -, -, -, hticks⟩ := halts_of_reachable (reachable_loneFollower 5)
  refine ⟨⟨reachable_loneFollower 5, fun n => (hticks n).1 hmoderate, (hticks 0).2 hcompact⟩,
    reachable_loneFollower _, ?_⟩
  exact (halts_of_reachable (reachable_loneFollower Double.greatestPower)).2.2.1.mpr
    ⟨[], _, [], 0, .follow "x" Double.greatestPower 1, rfl, by simp, rfl, rfl⟩

/-- Two agents in one place, far away from eight others. The first one is to follow within a
radius of 5. -/
def farFollower : World Float :=
  (inRow [1e20, 1e20, 0, 20, 40, 60, 80, 100, 120, 140]).updateAgent ⟨1, 0⟩
    (·.bind ⟨#[.action (.follow "T" 5 1)], [0]⟩)

/-- A random place within `2 ^ 1023` of the axes cannot be had, nor can the targets of
following within that radius and of wandering between corners as far on either side, and
yet the settings and the programs are accepted. So is a program for which a tick overflows
in checked arithmetic. -/
theorem halts_of_accepted :
    (∃ start : World Float,
      create { Settings.default with spawnExtent := Double.greatestPower } 3 = .ok start ∧
        start.spawnRandom = .error .unboundedRange) ∧
    (∀ event ∈ [.follow "x" Double.greatestPower 1,
        .wander ⟨-Double.greatestPower, 0⟩ ⟨Double.greatestPower, 0⟩ 1],
      ∃ (p : Program Float) (start spawned bound : World Float),
        Program.ofEvents [event] = .ok p ∧ create .default 3 = .ok start ∧
          start.spawn .origin "x" = .ok spawned ∧ spawned.bind ⟨1, 0⟩ p = .ok bound ∧
          bound.stepAgents.2 = .error .unboundedRange) ∧
    ∃ (p : Program Float) (row : World Float), Program.ofEvents [.follow "T" 5 1] = .ok p ∧
      Reachable row ∧ row.bind ⟨1, 0⟩ p = .ok farFollower ∧
        farFollower.stepAgentsChecked = none := by
  have hrow : Reachable (inRow [1e20, 1e20, 0, 20, 40, 60, 80, 100, 120, 140] : World Float) :=
    reachable_inRow (by decide +kernel) (by decide +kernel)
  refine ⟨⟨_, rfl, rfl⟩, List.forall_mem_cons.mpr ⟨?_, List.forall_mem_singleton.mpr ?_⟩,
    _, _, rfl, hrow, rfl, ?_⟩
  · exact ⟨_, _, _, _, rfl, rfl, rfl, rfl, rfl⟩
  · exact ⟨_, _, _, _, rfl, rfl, rfl, rfl, rfl⟩
  · have hfollower : Reachable farFollower := hrow.changed (.updated _ _ _)
    have hfault : (farFollower.agent? ⟨1, 0⟩).bind (·.fault? farFollower.inRegion) = none := by
      decide +kernel
    have hwindow : Grid.HasWindow farFollower.settings.cellSize farFollower.positions 5 1 :=
      ⟨by decide +kernel, by decide +kernel⟩
    refine (stepAgentsChecked_eq_none_iff hfollower).mpr ⟨[], _, _, rfl, by simp, .inr ⟨hfault, ?_⟩⟩
    exact ⟨0, "T", 5, 1, rfl, by decide +kernel, _, rfl, 1, hwindow, by decide +kernel⟩

end World

end Flock
