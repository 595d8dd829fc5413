import Flock.Proofs.Agent.Draws
import Flock.Proofs.Whole

/-!
# What an action does to a body

What a step can make of a body is said once, action by action (`Body.Effect`): which values
an action takes over, which of them it leaves, and that it moves the body once at most, along
the heading that the body has by then. From this come the bounds on every step
(`Cursor.confined_of_step`): each part of a body is changed by a few kinds of actions only,
and a step that executes nothing changes nothing.
-/

namespace Flock

variable {α : Type} [Scalar α]

namespace Body

variable {b b' : Body α}

theorem moveStep_eq_ok (h : b.moveStep = .ok b') :
    ∃ heading, b.heading = some heading ∧
      b' = { b with
        position := b.position.offset (heading.dx * b.speed) (heading.dy * b.speed) } := by
  unfold moveStep at h
  split at h
  · exact absurd h (by simp)
  · next heading hheading => exact ⟨heading, hheading, (Except.ok.inj h).symm⟩

/-- The body has been displaced once from where it was, by its present speed along its present
heading. -/
def Displaced (b b' : Body α) : Prop :=
  ∃ heading, b'.heading = some heading ∧
    b'.position = b.position.offset (heading.dx * b'.speed) (heading.dy * b'.speed)

/-- The bounds on what an action does to a body: which kinds of actions change which parts of
it, and to what. -/
structure Confined (a : Action α) (b b' : Body α) : Prop where
  position : b'.position = b.position ∨
    a.kind ∈ [ActionKind.wait, .wander, .follow] ∧ b.Displaced b'
  speed : b'.speed = b.speed ∨ a.kind ∈ [ActionKind.move, .wander, .follow, .stop]
  heading : b'.heading = b.heading ∨ a.kind ∈ [ActionKind.move, .wander, .follow]
  heading_isSome : b.heading.isSome → b'.heading.isSome
  label : b'.label = b.label ∨ a = .signal b'.label ∨ a = .unsignal b.label ∧ b'.label = ""

variable [Circular α]

/-- What an action can make of a body. Where a body is turned to a random point or to its
peers, the point may be any. -/
inductive Effect (b : Body α) : Action α → Body α → Prop where
  | move (target : Point α) (speed : α) :
      Effect b (.move target speed) (({ b with speed } : Body α).face target)
  | wander (corner1 corner2 : Point α) (speed : α) (target : Point α) :
      Effect b (.wander corner1 corner2 speed) (({ b with speed } : Body α).stride target)
  | signal (label : String) : Effect b (.signal label) (b.signal label)
  | unsignal (label : String) : Effect b (.unsignal label) (b.unsignal label)
  | follow (label : String) (radius speed : α) (target : Point α) :
      Effect b (.follow label radius speed) (({ b with speed } : Body α).stride target)
  | stop : Effect b .stop b.halt
  | stay (ticks : UInt32) : Effect b (.wait ticks) b
  | keepCourse (ticks : UInt32) {heading : Heading α} (h : b.heading = some heading) :
      Effect b (.wait ticks) { b with
        position := b.position.offset (heading.dx * b.speed) (heading.dy * b.speed) }

variable {a : Action α} {id : AgentId} {view : Surroundings α} {words words' : WordStream}

theorem effect_perform (h : b.perform id view words a = .ok (b', words')) : b.Effect a b' := by
  cases a with
  | move target speed =>
      obtain ⟨rfl, -⟩ := Prod.mk.inj (Except.ok.inj h)
      exact .move target speed
  | wander corner1 corner2 speed =>
      have heq := (wander_eq corner1 corner2 speed).symm.trans h
      split at heq
      · exact absurd heq (by simp)
      · obtain ⟨rfl, -⟩ := Prod.mk.inj (Except.ok.inj heq)
        exact .wander corner1 corner2 speed _
  | follow label radius speed =>
      have heq := (follow_eq label radius speed).symm.trans h
      split at heq
      · exact absurd heq (by simp)
      · obtain ⟨rfl, -⟩ := Prod.mk.inj (Except.ok.inj heq)
        exact .follow label radius speed _
  | signal label =>
      obtain ⟨rfl, -⟩ := Prod.mk.inj (Except.ok.inj h)
      exact .signal label
  | unsignal label =>
      obtain ⟨rfl, -⟩ := Prod.mk.inj (Except.ok.inj h)
      exact .unsignal label
  | stop =>
      obtain ⟨rfl, -⟩ := Prod.mk.inj (Except.ok.inj h)
      exact .stop
  | wait ticks =>
      obtain ⟨rfl, -⟩ := Prod.mk.inj (Except.ok.inj h)
      exact .stay ticks

theorem displaced_stride (b : Body α) (target : Point α) : b.Displaced (b.stride target) :=
  ⟨_, rfl, rfl⟩

omit [Circular α] in
/-- An action may leave a body as it is. -/
theorem confined_refl (a : Action α) (b : Body α) : Confined a b b :=
  ⟨.inl rfl, .inl rfl, .inl rfl, id, .inl rfl⟩

theorem confined_stride {speed : α} (hkind : a.kind ∈ [ActionKind.wander, .follow])
    (b : Body α) (target : Point α) :
    Confined a b (({ b with speed } : Body α).stride target) where
  position := .inr ⟨List.mem_cons_of_mem _ hkind, displaced_stride _ target⟩
  speed := .inr (List.mem_cons_of_mem _ (List.mem_append_left [ActionKind.stop] hkind))
  heading := .inr (List.mem_cons_of_mem _ hkind)
  heading_isSome := fun _ => rfl
  label := .inl rfl

/-- What an action can make of a body keeps within its bounds. -/
theorem Effect.confined (h : b.Effect a b') : Confined a b b' := by
  cases h with
  | move target speed =>
      exact ⟨.inl rfl, .inr List.mem_cons_self, .inr List.mem_cons_self, fun _ => rfl, .inl rfl⟩
  | wander corner1 corner2 speed target => exact confined_stride (by simp [Action.kind]) b target
  | follow label radius speed target => exact confined_stride (by simp [Action.kind]) b target
  | signal label => exact ⟨.inl rfl, .inl rfl, .inl rfl, id, .inr (.inl rfl)⟩
  | unsignal label =>
      unfold Body.unsignal
      split
      · next heq =>
        have hown : Action.unsignal (α := α) label = .unsignal b.label := congrArg _ heq.symm
        exact ⟨.inl rfl, .inl rfl, .inl rfl, id, .inr (.inr ⟨hown, rfl⟩)⟩
      · exact confined_refl _ b
  | stop => exact ⟨.inl rfl, .inr (by simp [Action.kind]), .inl rfl, id, .inl rfl⟩
  | stay ticks => exact confined_refl _ b
  | keepCourse ticks hheading =>
      exact ⟨.inr ⟨List.mem_cons_self, _, hheading, rfl⟩, .inl rfl, .inl rfl, id, .inl rfl⟩

end Body

namespace Cursor

variable [Circular α] {p : Program α} {c d : Cursor} {b b' : Body α} {a : Action α} {id : AgentId}
  {view : Surroundings α} {words words' : WordStream} {node : Nat}

theorem effect_execute (h : c.execute p id view b words a = .ok (d, b', words')) :
    b.Effect a b' := by
  rcases execute_cases h with ⟨ticks, rfl, htick, -⟩ | ⟨-, hperform, -⟩
  · have hmove := (waitTick_eq_ok htick).1
    split at hmove
    · rw [hmove]
      exact .stay ticks
    · obtain ⟨heading, hheading, hmoved⟩ := Body.moveStep_eq_ok hmove
      rw [hmoved]
      exact .keepCourse ticks hheading
  · exact Body.effect_perform hperform

/-- A step that executes nothing leaves the body and the words as they are. -/
theorem eq_of_step {turn : Turn α} (h : (c.step p id view b words).2 = .ok turn)
    (hidle : turn.report.executed = none) : turn.body = b ∧ turn.words = words := by
  have houtcome := outcome_step p id view c b words
  generalize c.step p id view b words = result at houtcome h
  cases houtcome with
  | idle =>
      obtain rfl := Except.ok.inj h
      exact ⟨rfl, rfl⟩
  | failed => exact absurd h (by simp)
  | executed =>
      obtain rfl := Except.ok.inj h
      exact absurd hidle (by simp)

/-- What a step executes is an action of the program, with the body and the words that the step
begins with. -/
theorem execute_of_step {turn : Turn α} (h : (c.step p id view b words).2 = .ok turn)
    (hexecuted : turn.report.executed = some (node, a)) :
    p.node? node = some (.action a) ∧
      ∃ before after : Cursor,
        before.execute p id view b words a = .ok (after, turn.body, turn.words) := by
  have houtcome := outcome_step p id view c b words
  generalize c.step p id view b words = result at houtcome h
  cases houtcome with
  | idle =>
      obtain rfl := Except.ok.inj h
      exact absurd hexecuted (by simp)
  | failed => exact absurd h (by simp)
  | executed haction hexecute =>
      obtain rfl := Except.ok.inj h
      obtain ⟨rfl, rfl⟩ := Prod.mk.inj (Option.some.inj hexecuted)
      exact ⟨(reached_of_hop (hop_found haction)).2.2, _, _, hexecute⟩

/-- Anything that is executed but a wait is performed on the body. -/
theorem perform_of_step {turn : Turn α} (h : (c.step p id view b words).2 = .ok turn)
    (hexecuted : turn.report.executed = some (node, a)) (ha : ∀ ticks, a ≠ .wait ticks) :
    b.perform id view words a = .ok (turn.body, turn.words) := by
  obtain ⟨-, before, after, hexecute⟩ := execute_of_step h hexecuted
  rcases execute_cases hexecute with ⟨ticks, hwait, -⟩ | ⟨-, hperform, -⟩
  · exact absurd hwait (ha ticks)
  · exact hperform

/-- What a step that succeeds does to the body and the words: nothing if it executes nothing,
and otherwise what the one action that it executes can do. -/
theorem effect_step {turn : Turn α} (h : (c.step p id view b words).2 = .ok turn) :
    (turn.report.executed = none → turn.body = b ∧ turn.words = words) ∧
    ∀ node a, turn.report.executed = some (node, a) →
      p.node? node = some (.action a) ∧ b.Effect a turn.body := by
  refine ⟨eq_of_step h, fun node a hexecuted => ?_⟩
  obtain ⟨hnode, before, after, hexecute⟩ := execute_of_step h hexecuted
  exact ⟨hnode, effect_execute hexecute⟩

/-- The bounds on what a step changes, whatever the program, the cursor, the surroundings and
the words. A step that succeeds and executes nothing leaves the body and the words as they
are. Otherwise the body is where it was, or has been displaced once, by a wait, a wander or a
follow, along the heading and at the speed that it has after the step. Only a move, a wander, a
follow or a stop changes its speed, and only the first three of these its heading, which is
never taken away. Its label is changed by a signal, to that of the signal, and by an unsignal
of the very label that it broadcasts, to the empty one. -/
theorem confined_of_step {turn : Turn α} (h : (c.step p id view b words).2 = .ok turn) :
    (turn.report.executed = none → turn.body = b ∧ turn.words = words) ∧
    ∀ node a, turn.report.executed = some (node, a) → Body.Confined a b turn.body := by
  obtain ⟨hidle, heffect⟩ := effect_step h
  exact ⟨hidle, fun node a hexecuted => (heffect node a hexecuted).2.confined⟩

/-- An agent on its way east executes the first tick of a wait in a loop, and has moved by its
speed. -/
theorem confined_of_step_wait :
    let p : Program Whole := ⟨#[.action (.wait 2), .block (.times 2) [0]], [1]⟩
    let b : Body Whole := ⟨⟨0, 0⟩, some .east, 3, "x"⟩
    ∃ turn, (start.step p ⟨1, 0⟩ (.alone []) b (.ofSeed 3)).2 = .ok turn ∧
      turn.report.executed = some (0, .wait 2) ∧ Body.Confined (.wait 2) b turn.body ∧
      turn.body = { b with position := ⟨3, 0⟩ } := by
  intro p b
  let moved : Body Whole := { b with position := ⟨3, 0⟩ }
  have hstep : (start.step p ⟨1, 0⟩ (.alone []) b (.ofSeed 3)).2 =
      .ok ⟨moved, .ofSeed 3, ⟨some (0, .wait 2), 0, false⟩⟩ := rfl
  exact ⟨_, hstep, rfl, (confined_of_step hstep).2 0 (.wait 2) rfl, rfl⟩

end Cursor

/-- Anything that an agent executes but a wait is performed on its body. -/
theorem Agent.perform_of_step [Circular α] {agent next : Agent α} {id : AgentId}
    {view : Surroundings α} {words rest : WordStream} {report : Option (StepReport α)} {node : Nat}
    {a : Action α} (h : agent.step id view words = (next, .ok (report, rest)))
    (hexecuted : report.bind (·.executed) = some (node, a)) (ha : ∀ ticks, a ≠ .wait ticks) :
    agent.body.perform id view words a = .ok (next.body, rest) := by
  unfold step at h
  split at h
  · obtain ⟨rfl, -⟩ := Prod.mk.inj (Except.ok.inj (Prod.mk.inj h).2)
    exact absurd hexecuted (by simp)
  · next execution _ =>
    split at h
    · exact absurd (Prod.mk.inj h).2 (by simp)
    · next cursor turn hstep =>
      obtain ⟨rfl, hreport⟩ := Prod.mk.inj h
      obtain ⟨rfl, rfl⟩ := Prod.mk.inj (Except.ok.inj hreport)
      exact Cursor.perform_of_step (congrArg Prod.snd hstep) hexecuted ha

end Flock
