import Flock.Proofs.Agent.Fault

/-!
# The words that a step draws

An action samples from fixed ranges (`Action.ranges`), one word from each of them that
has two different ends. So the action alone says how many words it takes
(`Action.draws`), and also whether it fails for a range whose width is not finite
(`Action.isUnbounded`).

Which action a step comes to is decided by the program, the cursor and the regions that
the body stands in (`Agent.due?`). So neither the words that a step is given nor the
agents around it have any say in the number of words that it draws, in whether it fails,
and in what it reports (`Agent.step_of_fault?`, `Agent.step_of_fault?_eq_none`). All that
the words decide is where the body goes, and not even that if none are drawn.
-/

namespace Flock

variable {α : Type} [Scalar α]

namespace Scalar

/-- Two values differ if there is something to choose between them. -/
def differ (a b : α) : Bool := !(decide (a ≤ b) && decide (b ≤ a))

/-- The width of the range between two values, which may stand in either order. -/
def width (a b : α) : α := if a ≤ b then b - a else a - b

end Scalar

namespace WordStream

variable {words : WordStream} {a b : α}

/-- The value taken from the range between `a` and `b`. -/
def pick (words : WordStream) (a b : α) : α :=
  let low := if a ≤ b then a else b
  if Scalar.differ a b then Scalar.fraction words.head * Scalar.width a b + low else low

/-- A sample takes a word if the ends of the range differ; then the width has to be
finite. -/
theorem sampleBetween_eq (a b : α) (words : WordStream) :
    words.sampleBetween a b =
      if Scalar.differ a b && !Scalar.isFinite (Scalar.width a b) then .error .unboundedRange
      else .ok (words.pick a b, words.drop (if Scalar.differ a b then 1 else 0)) := by
  by_cases hle : a ≤ b
  · by_cases hge : b ≤ a
    · simp [sampleBetween, pick, Scalar.differ, hle, hge, drop]
    · cases hfinite : Scalar.isFinite (b - a) <;>
        simp [sampleBetween, sampleRange, pick, Scalar.differ, Scalar.width, hle, hge, drop,
          hfinite]
  · cases hfinite : Scalar.isFinite (a - b) <;>
      simp [sampleBetween, sampleRange, pick, Scalar.differ, Scalar.width, hle, drop, hfinite]

theorem pick_of_not_differ (h : Scalar.differ a b = false) (words others : WordStream) :
    words.pick a b = others.pick a b := by
  simp [pick, h]

end WordStream

namespace Action

/-- The ranges that an action samples from, each given by its two ends. -/
def ranges : Action α → List (α × α)
  | wander corner1 corner2 _ => [(corner1.x, corner2.x), (corner1.y, corner2.y)]
  | follow _ radius _ => [(-radius, radius), (-radius, radius)]
  | _ => []

/-- The number of words that an action takes. -/
def draws (a : Action α) : Nat := a.ranges.countP fun r => Scalar.differ r.1 r.2

/-- An action asks for a sample from a range whose width is not finite. -/
def isUnbounded (a : Action α) : Bool :=
  a.ranges.any fun r => Scalar.differ r.1 r.2 && !Scalar.isFinite (Scalar.width r.1 r.2)

/-- An action that takes no words cannot ask too much of them. -/
theorem isUnbounded_of_draws_eq_zero {a : Action α} (h : a.draws = 0) : a.isUnbounded = false := by
  rw [draws, List.countP_eq_zero] at h
  rw [isUnbounded, List.any_eq_false]
  intro r hr
  simp [h r hr]

end Action

namespace Body

/-- What is done with two samples. -/
theorem sampleTwice_eq {β : Type} (a b c d : α) (words : WordStream)
    (next : α → α → WordStream → Except (Fault α) β) :
    (words.sampleBetween a b >>= fun first =>
        first.2.sampleBetween c d >>= fun second => next first.1 second.1 second.2) =
      if [(a, b), (c, d)].any fun r =>
          Scalar.differ r.1 r.2 && !Scalar.isFinite (Scalar.width r.1 r.2) then
        .error .unboundedRange
      else
        next (words.pick a b) ((words.drop (if Scalar.differ a b then 1 else 0)).pick c d)
          (words.drop ([(a, b), (c, d)].countP fun r => Scalar.differ r.1 r.2)) := by
  rw [WordStream.sampleBetween_eq]
  cases hfirst : Scalar.differ a b && !Scalar.isFinite (Scalar.width a b) with
  | true => simp [hfirst, bind, Except.bind]
  | false =>
      simp only [bind, Except.bind, Bool.false_eq_true, if_false, WordStream.sampleBetween_eq]
      cases hsecond : Scalar.differ c d && !Scalar.isFinite (Scalar.width c d) with
      | true => simp [hsecond]
      | false => simp [hfirst, hsecond, WordStream.drop_drop, List.countP_cons, Nat.add_comm]

variable [Circular α]

/-- The body turned to a point and moved one step. -/
def stride (b : Body α) (target : Point α) : Body α :=
  let heading := Heading.towards b.position target
  { b with
    heading := some heading
    position := b.position.offset (heading.dx * b.speed) (heading.dy * b.speed) }

variable {id : AgentId} {view : Surroundings α} {b : Body α} {words : WordStream}

theorem wander_eq (corner1 corner2 : Point α) (speed : α) :
    b.wander corner1 corner2 speed words =
      if (Action.wander corner1 corner2 speed).isUnbounded then .error .unboundedRange
      else .ok ({ b with speed := speed }.stride ⟨words.pick corner1.x corner2.x,
          (words.drop (if Scalar.differ corner1.x corner2.x then 1 else 0)).pick
            corner1.y corner2.y⟩,
        words.drop (Action.wander corner1 corner2 speed).draws) :=
  sampleTwice_eq corner1.x corner2.x corner1.y corner2.y words fun x y words =>
    .ok (({ b with speed := speed } : Body α).stride ⟨x, y⟩, words)

theorem follow_eq (label : String) (radius speed : α) :
    b.follow id view radius speed words =
      if (Action.follow label radius speed).isUnbounded then .error .unboundedRange
      else .ok (({ b with speed := speed } : Body α).stride
          (({ b with speed := speed } : Body α).followTarget id view radius
            (b.position.offset (words.pick (-radius) radius)
              ((words.drop (if Scalar.differ (-radius) radius then 1 else 0)).pick
                (-radius) radius))),
        words.drop (Action.follow label radius speed).draws) :=
  sampleTwice_eq (-radius) radius (-radius) radius words fun dx dy words =>
    .ok (({ b with speed := speed } : Body α).stride (({ b with speed := speed } : Body α).followTarget
      id view radius (b.position.offset dx dy)), words)

theorem perform_of_isUnbounded {a : Action α} (h : a.isUnbounded) (words : WordStream) :
    b.perform id view words a = .error .unboundedRange := by
  cases a with
  | wander corner1 corner2 speed => exact (wander_eq corner1 corner2 speed).trans (if_pos h)
  | follow label radius speed => exact (follow_eq label radius speed).trans (if_pos h)
  | move target speed => exact absurd h (by simp [Action.isUnbounded, Action.ranges])
  | signal label => exact absurd h (by simp [Action.isUnbounded, Action.ranges])
  | unsignal label => exact absurd h (by simp [Action.isUnbounded, Action.ranges])
  | stop => exact absurd h (by simp [Action.isUnbounded, Action.ranges])
  | wait ticks => exact absurd h (by simp [Action.isUnbounded, Action.ranges])

/-- What an action does to a body, so far as it succeeds. The words may decide on its
effect; how many of them are taken is known beforehand. -/
theorem perform_of_not_isUnbounded {a : Action α} (h : a.isUnbounded = false) (id : AgentId)
    (view : Surroundings α) (b : Body α) :
    ∃ effect : WordStream → Body α,
      (∀ words, b.perform id view words a = .ok (effect words, words.drop a.draws)) ∧
        (a.draws = 0 → ∀ words others, effect words = effect others) := by
  cases a with
  | wander corner1 corner2 speed =>
      refine ⟨_, fun words => (wander_eq corner1 corner2 speed).trans (if_neg (by simp [h])), ?_⟩
      intro hdraws words others
      obtain ⟨hx, hy⟩ : Scalar.differ corner1.x corner2.x = false ∧
          Scalar.differ corner1.y corner2.y = false := by
        simpa [Action.draws, Action.ranges] using hdraws
      rw [WordStream.pick_of_not_differ hx words others,
        WordStream.pick_of_not_differ hy (words.drop _) (others.drop _)]
  | follow label radius speed =>
      refine ⟨_, fun words => (follow_eq label radius speed).trans (if_neg (by simp [h])), ?_⟩
      intro hdraws words others
      have hradius : Scalar.differ (-radius) radius = false := by
        simpa [Action.draws, Action.ranges] using hdraws
      rw [WordStream.pick_of_not_differ hradius words others,
        WordStream.pick_of_not_differ hradius (words.drop _) (others.drop _)]
  | move target speed => exact ⟨fun _ => _, fun words => rfl, fun _ _ _ => rfl⟩
  | signal label => exact ⟨fun _ => _, fun words => rfl, fun _ _ _ => rfl⟩
  | unsignal label => exact ⟨fun _ => _, fun words => rfl, fun _ _ _ => rfl⟩
  | stop => exact ⟨fun _ => _, fun words => rfl, fun _ _ _ => rfl⟩
  | wait ticks => exact ⟨fun _ => _, fun words => rfl, fun _ _ _ => rfl⟩

end Body

namespace Cursor

/-- The fault that an action comes to at the place of a cursor. -/
def faultOf? (c : Cursor) (b : Body α) (a : Action α) : Option (Fault α) :=
  match a with
  | .wait ticks =>
    if c.waitLeft.getD ticks.toNat = 0 ∨ b.heading.isSome then none else some .noHeading
  | a => if a.isUnbounded then some .unboundedRange else none

variable {p : Program α} {c : Cursor} {b : Body α} {a : Action α} {fault : Fault α}

theorem faultOf?_of_ne_wait (ha : ∀ ticks, a ≠ .wait ticks) :
    c.faultOf? b a = if a.isUnbounded then some .unboundedRange else none := by
  cases a
  case wait ticks => exact absurd rfl (ha ticks)
  all_goals rfl

/-- An action that takes no words fails only for want of a heading. -/
theorem faultOf?_of_draws_eq_zero (hdraws : a.draws = 0) (h : c.faultOf? b a = some fault) :
    fault = .noHeading := by
  by_cases ha : ∃ ticks, a = .wait ticks
  · obtain ⟨ticks, rfl⟩ := ha
    rw [faultOf?, Option.ite_none_left_eq_some] at h
    exact (Option.some.inj h.2).symm
  · rw [faultOf?_of_ne_wait fun ticks heq => ha ⟨ticks, heq⟩,
      Action.isUnbounded_of_draws_eq_zero hdraws] at h
    exact absurd h (by simp)

theorem faultOf?_eq_unboundedRange_iff :
    c.faultOf? b a = some .unboundedRange ↔ a.isUnbounded := by
  by_cases ha : ∃ ticks, a = .wait ticks
  · obtain ⟨ticks, rfl⟩ := ha
    simp [faultOf?, Action.isUnbounded, Action.ranges]
  · rw [faultOf?_of_ne_wait fun ticks heq => ha ⟨ticks, heq⟩]
    simp

/-- A tick of a wait fails if ticks are left to move and the body has no heading. -/
theorem waitTick_eq (p : Program α) (c : Cursor) (ticks : UInt32) (b : Body α) :
    match c.faultOf? b (.wait ticks) with
    | some fault => c.waitTick p ticks.toNat b = .error fault
    | none => ∃ d b', c.waitTick p ticks.toNat b = .ok (d, b') := by
  cases hleft : c.waitLeft.getD ticks.toNat with
  | zero => simp [faultOf?, waitTick, hleft]
  | succ left =>
      cases hheading : b.heading with
      | none => simp [faultOf?, waitTick, hleft, hheading, Body.moveStep, bind, Except.bind]
      | some heading =>
          by_cases hlast : left = 0 <;>
            simp [faultOf?, waitTick, hleft, hheading, hlast, Body.moveStep, bind, Except.bind,
              pure, Except.pure]

variable [Circular α] {id : AgentId} {view : Surroundings α}

theorem execute_of_faultOf? (h : c.faultOf? b a = some fault) (p : Program α) (id : AgentId)
    (view : Surroundings α) (words : WordStream) :
    c.execute p id view b words a = .error fault := by
  by_cases ha : ∃ ticks, a = .wait ticks
  · obtain ⟨ticks, rfl⟩ := ha
    have htick := waitTick_eq p c ticks b
    rw [h] at htick
    rw [execute_wait, htick]
    rfl
  · have ha : ∀ ticks, a ≠ .wait ticks := fun ticks heq => ha ⟨ticks, heq⟩
    rw [faultOf?_of_ne_wait ha, Option.ite_none_right_eq_some] at h
    obtain ⟨hunbounded, hfault⟩ := h
    obtain rfl := Option.some.inj hfault
    rw [execute_of_ne_wait ha, Body.perform_of_isUnbounded hunbounded]
    rfl

/-- What an action does at the place of a cursor, so far as it succeeds. Where the cursor
goes has nothing to do with the words. -/
theorem execute_of_faultOf?_eq_none (h : c.faultOf? b a = none) (p : Program α) (id : AgentId)
    (view : Surroundings α) :
    ∃ (d : Cursor) (effect : WordStream → Body α),
      (∀ words, c.execute p id view b words a = .ok (d, effect words, words.drop a.draws)) ∧
        (a.draws = 0 → ∀ words others, effect words = effect others) := by
  by_cases ha : ∃ ticks, a = .wait ticks
  · obtain ⟨ticks, rfl⟩ := ha
    have htick := waitTick_eq p c ticks b
    rw [h] at htick
    obtain ⟨d, b', htick⟩ := htick
    refine ⟨d, fun _ => b', fun words => ?_, fun _ _ _ => rfl⟩
    rw [execute_wait, htick]
    rfl
  · have ha : ∀ ticks, a ≠ .wait ticks := fun ticks heq => ha ⟨ticks, heq⟩
    have hbounded : a.isUnbounded = false := by simpa [faultOf?_of_ne_wait ha] using h
    obtain ⟨effect, hperform, hsame⟩ := Body.perform_of_not_isUnbounded hbounded id view b
    refine ⟨c.advance p, effect, fun words => ?_, hsame⟩
    rw [execute_of_ne_wait ha, hperform]
    rfl

/-- The number of words that the action drawn up for a step takes. -/
def drawsOf (due : Option (Nat × Action α)) : Nat := due.elim 0 fun due => due.2.draws

theorem step_of_faultOf? {node : Nat}
    (hdue : (c.found p (view.inRegion b.position)).action? = some (node, a))
    (h : (c.found p (view.inRegion b.position)).cursor.faultOf? b a = some fault)
    (id : AgentId) (words : WordStream) : (c.step p id view b words).2 = .error fault := by
  -- recording that an action was run leaves the wait as it is
  have hexecute := execute_of_faultOf?
    (c := (c.found p (view.inRegion b.position)).cursor.markRan) h p id view words
  rw [step_of_execute_eq_error hdue hexecute]

/-- What a step comes to if its action does not fail, also if there is none. -/
theorem step_of_faultOf?_eq_none (p : Program α) (c : Cursor) (view : Surroundings α) (b : Body α)
    (h : ∀ node a, (c.found p (view.inRegion b.position)).action? = some (node, a) →
      (c.found p (view.inRegion b.position)).cursor.faultOf? b a = none) (id : AgentId) :
    let due := (c.found p (view.inRegion b.position)).action?
    ∃ (d : Cursor) (effect : WordStream → Body α) (report : StepReport α),
      (∀ words, c.step p id view b words =
        (d, .ok ⟨effect words, words.drop (drawsOf due), report⟩)) ∧
      report.executed = due ∧ (drawsOf due = 0 → ∀ words others, effect words = effect others) := by
  intro due
  let inside := view.inRegion b.position
  cases hdue : (c.found p inside).action? with
  | none =>
      have hnone : drawsOf due = 0 := by rw [show due = none from hdue]; rfl
      refine ⟨(c.found p inside).cursor, fun _ => b, ⟨none, (c.closedIn p inside).toUInt32,
        (c.found p inside).cursor.isExhausted p⟩, fun words => ?_, hdue.symm, fun _ _ _ => rfl⟩
      rw [hnone]
      exact step_of_action?_eq_none hdue
  | some result =>
      obtain ⟨node, a⟩ := result
      obtain ⟨d, effect, hexecute, hsame⟩ := execute_of_faultOf?_eq_none
        (c := (c.found p (view.inRegion b.position)).cursor.markRan) (h node a hdue) p id view
      have hsome : drawsOf due = a.draws := by rw [show due = _ from hdue]; rfl
      refine ⟨d, effect, ⟨some (node, a), (c.closedIn p inside).toUInt32, d.isExhausted p⟩,
        fun words => ?_, hdue.symm, by rwa [hsome]⟩
      rw [hsome]
      exact step_of_execute_eq_ok hdue (hexecute words)

end Cursor

namespace Agent

/-- The action that the step of an agent comes to, and its node. -/
def due? (inRegion : Point α → String → Bool) (agent : Agent α) : Option (Nat × Action α) :=
  agent.execution.bind fun execution =>
    (execution.cursor.found execution.program (inRegion agent.body.position)).action?

/-- The number of words that the step of an agent draws. -/
def draws (inRegion : Point α → String → Bool) (agent : Agent α) : Nat :=
  Cursor.drawsOf (agent.due? inRegion)

/-- The fault that the step of an agent comes to. -/
def fault? (inRegion : Point α → String → Bool) (agent : Agent α) : Option (Fault α) :=
  agent.execution.bind fun execution =>
    let found := execution.cursor.found execution.program (inRegion agent.body.position)
    found.action?.bind fun due => found.cursor.faultOf? agent.body due.2

variable {inRegion : Point α → String → Bool}

omit [Scalar α] in
/-- The action that a step comes to is one of the agent's program. -/
theorem node?_of_due? {agent : Agent α} {node : Nat} {a : Action α}
    (h : agent.due? inRegion = some (node, a)) :
    ∃ execution, agent.execution = some execution ∧
      execution.program.node? node = some (.action a) := by
  obtain ⟨execution, hexecution, hfound⟩ := Option.bind_eq_some_iff.mp h
  obtain ⟨-, -, hnode⟩ := Cursor.reached_of_hop (Cursor.hop_found hfound)
  exact ⟨execution, hexecution, hnode⟩

theorem fault?_eq_unboundedRange_iff {agent : Agent α} :
    agent.fault? inRegion = some .unboundedRange ↔
      ∃ node a, agent.due? inRegion = some (node, a) ∧ a.isUnbounded := by
  cases hexecution : agent.execution with
  | none => simp [fault?, due?, hexecution]
  | some execution =>
      simp [fault?, due?, hexecution, Option.bind_eq_some_iff, Cursor.faultOf?_eq_unboundedRange_iff]

theorem fault?_of_draws_eq_zero {agent : Agent α} {fault : Fault α} (hdraws : agent.draws inRegion = 0)
    (h : agent.fault? inRegion = some fault) : fault = .noHeading := by
  obtain ⟨execution, hexecution, h⟩ := Option.bind_eq_some_iff.mp h
  obtain ⟨due, hdue, h⟩ := Option.bind_eq_some_iff.mp h
  refine Cursor.faultOf?_of_draws_eq_zero ?_ h
  rwa [draws, due?, hexecution, Option.bind_some, hdue] at hdraws

variable [Circular α] {view : Surroundings α} {agent : Agent α}

/-- Whether the step of an agent fails, and how, is the same with all words and whatever
other agents there are. -/
theorem step_of_fault? {fault : Fault α} (h : agent.fault? view.inRegion = some fault)
    (id : AgentId) (words : WordStream) : (agent.step id view words).2 = .error fault := by
  obtain ⟨execution, hexecution, h⟩ := Option.bind_eq_some_iff.mp h
  obtain ⟨⟨node, a⟩, hdue, h⟩ := Option.bind_eq_some_iff.mp h
  have hstep := Cursor.step_of_faultOf? hdue h id words
  simp only [step, hexecution]
  generalize execution.cursor.step execution.program id view agent.body words = result at hstep ⊢
  obtain ⟨cursor, ending⟩ := result
  obtain rfl : ending = .error fault := hstep
  rfl

/-- What the step of an agent comes to if it does not fail. The words may decide on what
becomes of the body, and they do not if none are drawn; the report and the words that
are left have nothing to do with what they are. -/
theorem step_of_fault?_eq_none (h : agent.fault? view.inRegion = none) (id : AgentId) :
    ∃ (next : WordStream → Agent α) (report : Option (StepReport α)),
      (∀ words, agent.step id view words =
        (next words, .ok (report, words.drop (agent.draws view.inRegion)))) ∧
      report.bind (·.executed) = agent.due? view.inRegion ∧
      (agent.draws view.inRegion = 0 → ∀ words others, next words = next others) := by
  cases hexecution : agent.execution with
  | none =>
      refine ⟨fun _ => agent, none, fun words => ?_, ?_, fun _ _ _ => rfl⟩
      · simp [step, draws, due?, hexecution, Cursor.drawsOf, WordStream.drop]
      · simp [due?, hexecution]
  | some execution =>
      rw [fault?, hexecution, Option.bind_some] at h
      have hdue : agent.due? view.inRegion = (execution.cursor.found execution.program
          (view.inRegion agent.body.position)).action? := by
        rw [due?, hexecution, Option.bind_some]
      obtain ⟨d, effect, report, hstep, hexecuted, hsame⟩ := Cursor.step_of_faultOf?_eq_none
        execution.program execution.cursor view agent.body
        (fun node a hfound => by simpa [hfound] using h) id
      rw [draws, hdue]
      refine ⟨fun words => ⟨effect words, some { execution with cursor := d }⟩, some report,
        fun words => ?_, hexecuted,
        fun hdraws words others => congrArg (Agent.mk · _) (hsame hdraws words others)⟩
      simp only [step, hexecution, hstep]

end Agent

end Flock
