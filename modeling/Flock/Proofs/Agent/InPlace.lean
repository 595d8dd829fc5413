import Flock.Proofs.Agent.Draws

/-!
# Steps in place

`Cursor.step` returns what becomes of a body and of the random words where it succeeds,
and says nothing of them where it fails. `Stepping.step` is the same step with cursor,
body and words changed in place, one assignment after the other: speed before target,
target before movement, and each of them kept if a later one fails.

It makes the same of the three as `Cursor.step` does (`Stepping.run_step`). The only fault
that samples of finite width leave, a wait without a heading, comes before any assignment
to the body and before any word is drawn.
-/

namespace Flock

/-- An agent in the middle of its step. -/
structure Midstep (α : Type) where
  cursor : Cursor
  body : Body α
  words : WordStream
deriving DecidableEq, Repr

/-- Part of a step, in place. A fault leaves everything as it has become until then. -/
abbrev Stepping (α β : Type) : Type := EStateM (Fault α) (Midstep α) β

namespace Stepping

variable {α : Type} [Scalar α]

def changeCursor (change : Cursor → Cursor) : Stepping α Unit :=
  modify fun s => { s with cursor := change s.cursor }

def changeBody (change : Body α → Body α) : Stepping α Unit :=
  modify fun s => { s with body := change s.body }

/-- Takes a sample from the range between two values. -/
def sample (a b : α) : Stepping α α := do
  let s ← get
  match s.words.sampleBetween a b with
  | .error fault => throw fault
  | .ok (value, words) =>
    set { s with words }
    return value

/-- Moves the body one step along its heading. -/
def displace : Stepping α Unit := do
  match (← get).body.heading with
  | none => throw .noHeading
  | some h =>
    changeBody fun b => { b with position := b.position.offset (h.dx * b.speed) (h.dy * b.speed) }

variable [Circular α]

/-- Faces the middle of the peers, if there are any. -/
def facePeers (id : AgentId) (view : Surroundings α) (radius : α) : Stepping α Unit := do
  let b := (← get).body
  match Point.centroid ((b.peers id view radius).filterMap view.position?) with
  | some middle => changeBody (·.face middle)
  | none => pure ()

def perform (id : AgentId) (view : Surroundings α) : Action α → Stepping α Unit
  | .move target speed => do
    changeBody ({ · with speed := speed })
    changeBody (·.face target)
  | .wander corner1 corner2 speed => do
    let x ← sample corner1.x corner2.x
    let y ← sample corner1.y corner2.y
    changeBody ({ · with speed := speed })
    changeBody (·.face ⟨x, y⟩)
    displace
  | .signal label => changeBody (·.signal label)
  | .unsignal label => changeBody (·.unsignal label)
  | .follow _ radius speed => do
    changeBody ({ · with speed := speed })
    let dx ← sample (-radius) radius
    let dy ← sample (-radius) radius
    changeBody fun b => b.face (b.position.offset dx dy)
    facePeers id view radius
    displace
  | .stop => changeBody (·.halt)
  | .wait _ => pure ()

def execute (p : Program α) (id : AgentId) (view : Surroundings α) : Action α → Stepping α Unit
  | .wait ticks => do
    let left := (← get).cursor.waitLeft.getD ticks.toNat
    if left = 0 then changeCursor fun c => ({ c with waitLeft := none } : Cursor).advance p
    else
      displace
      if left - 1 = 0 then changeCursor fun c => ({ c with waitLeft := none } : Cursor).advance p
      else changeCursor ({ · with waitLeft := some (left - 1) })
  | action => do
    perform id view action
    changeCursor (·.advance p)

/-- One step of a program on behalf of the agent `id`. -/
def step (p : Program α) (id : AgentId) (view : Surroundings α) : Stepping α (StepReport α) := do
  let s ← get
  let inside := view.inRegion s.body.position
  let closed := (s.cursor.closedIn p inside).toUInt32
  let found := s.cursor.found p inside
  changeCursor fun _ => found.cursor
  match found.action? with
  | none => return ⟨none, closed, (← get).cursor.isExhausted p⟩
  | some (node, action) =>
    changeCursor (·.markRan)
    execute p id view action
    return ⟨some (node, action), closed, (← get).cursor.isExhausted p⟩

/-! What the parts of a step come to. -/

section Run

variable {β : Type} {c : Cursor} {b : Body α} {words : WordStream}

omit [Scalar α] [Circular α] in
theorem run_bind_ok {γ : Type} {x : Stepping α γ} {next : γ → Stepping α β} {value : γ}
    {s t : Midstep α} (h : x.run s = .ok value t) : (x >>= next).run s = (next value).run t := by
  have h : x s = .ok value t := h
  simp [EStateM.run, bind, EStateM.bind, h]

omit [Scalar α] [Circular α] in
theorem run_bind_error {γ : Type} {x : Stepping α γ} {next : γ → Stepping α β} {fault : Fault α}
    {s t : Midstep α} (h : x.run s = .error fault t) : (x >>= next).run s = .error fault t := by
  have h : x s = .error fault t := h
  simp [EStateM.run, bind, EStateM.bind, h]

omit [Scalar α] [Circular α] in
theorem run_get_bind (next : Midstep α → Stepping α β) (s : Midstep α) :
    (get >>= next).run s = (next s).run s := rfl

omit [Scalar α] [Circular α] in
theorem run_changeBody_bind (change : Body α → Body α) (next : Unit → Stepping α β) :
    (changeBody change >>= next).run ⟨c, b, words⟩ = (next ()).run ⟨c, change b, words⟩ := rfl

omit [Scalar α] [Circular α] in
theorem run_changeCursor_bind (change : Cursor → Cursor) (next : Unit → Stepping α β) :
    (changeCursor change >>= next).run ⟨c, b, words⟩ = (next ()).run ⟨change c, b, words⟩ := rfl

omit [Circular α] in
/-- A sample that can be had. -/
theorem run_sample {x y : α}
    (h : (Scalar.differ x y && !Scalar.isFinite (Scalar.width x y)) = false) :
    (sample x y).run ⟨c, b, words⟩ =
      .ok (words.pick x y) ⟨c, b, words.drop (if Scalar.differ x y then 1 else 0)⟩ := by
  rw [sample, run_get_bind, WordStream.sampleBetween_eq, if_neg (by simp [h])]
  rfl

omit [Circular α] in
theorem run_displace (c : Cursor) (b : Body α) (words : WordStream) :
    displace.run ⟨c, b, words⟩ =
      match b.moveStep with
      | .ok b' => .ok () ⟨c, b', words⟩
      | .error fault => .error fault ⟨c, b, words⟩ := by
  rw [displace, run_get_bind, Body.moveStep]
  cases hheading : b.heading with
  | none => rfl
  | some h =>
      simp only [← hheading]
      rfl

/-- A body that has been turned can move. -/
theorem run_stride (target : Point α) :
    (changeBody (·.face target) >>= fun _ => displace).run ⟨c, b, words⟩ =
      .ok () ⟨c, b.stride target, words⟩ := rfl

/-- A body that faces a point, and then its peers if there are any, moves toward the target
of its following. -/
theorem run_facePeers (id : AgentId) (view : Surroundings α) (radius : α) (drawn : Point α) :
    (facePeers id view radius >>= fun _ => displace).run ⟨c, b.face drawn, words⟩ =
      .ok () ⟨c, b.stride (b.followTarget id view radius drawn), words⟩ := by
  have hface : (facePeers id view radius).run ⟨c, b.face drawn, words⟩ =
      .ok () ⟨c, b.face (b.followTarget id view radius drawn), words⟩ := by
    have hpeers : (b.face drawn).peers id view radius = b.peers id view radius := rfl
    rw [facePeers, run_get_bind, Body.followTarget]
    simp only [hpeers]
    cases Point.centroid ((b.peers id view radius).filterMap view.position?) <;> rfl
  rw [run_bind_ok hface]
  rfl

end Run

variable {id : AgentId} {view : Surroundings α} {c : Cursor} {b : Body α} {words : WordStream}
  {a : Action α}

theorem run_perform_wander {corner1 corner2 : Point α} {speed : α}
    (h : (Action.wander corner1 corner2 speed).isUnbounded = false) :
    ∃ b' words', b.wander corner1 corner2 speed words = .ok (b', words') ∧
      (perform id view (.wander corner1 corner2 speed)).run ⟨c, b, words⟩ =
        .ok () ⟨c, b', words'⟩ := by
  refine ⟨_, _, (Body.wander_eq corner1 corner2 speed).trans (if_neg (by simp [h])), ?_⟩
  simp only [Action.isUnbounded, Action.ranges, List.any_cons, List.any_nil, Bool.or_false,
    Bool.or_eq_false_iff] at h
  rw [perform, run_bind_ok (run_sample h.1), run_bind_ok (run_sample h.2), run_changeBody_bind,
    run_stride, WordStream.drop_drop]
  simp [Action.draws, Action.ranges, List.countP_cons, Nat.add_comm]

theorem run_perform_follow {label : String} {radius speed : α}
    (h : (Action.follow label radius speed).isUnbounded = false) :
    ∃ b' words', b.follow id view radius speed words = .ok (b', words') ∧
      (perform id view (.follow label radius speed)).run ⟨c, b, words⟩ =
        .ok () ⟨c, b', words'⟩ := by
  refine ⟨_, _, (Body.follow_eq label radius speed).trans (if_neg (by simp [h])), ?_⟩
  simp only [Action.isUnbounded, Action.ranges, List.any_cons, List.any_nil, Bool.or_false,
    Bool.or_eq_false_iff] at h
  rw [perform, run_changeBody_bind, run_bind_ok (run_sample h.1), run_bind_ok (run_sample h.2),
    run_changeBody_bind, run_facePeers, WordStream.drop_drop]
  simp [Action.draws, Action.ranges, List.countP_cons]

theorem run_perform (h : a.isUnbounded = false) (id : AgentId) (view : Surroundings α)
    (c : Cursor) (b : Body α) (words : WordStream) :
    ∃ b' words', b.perform id view words a = .ok (b', words') ∧
      (perform id view a).run ⟨c, b, words⟩ = .ok () ⟨c, b', words'⟩ := by
  cases a with
  | wander corner1 corner2 speed => exact run_perform_wander h
  | follow label radius speed => exact run_perform_follow h
  | _ => exact ⟨_, _, rfl, rfl⟩

theorem run_execute_wait (p : Program α) (id : AgentId) (view : Surroundings α) (ticks : UInt32)
    (c : Cursor) (b : Body α) (words : WordStream) :
    (execute p id view (.wait ticks)).run ⟨c, b, words⟩ =
      match c.waitTick p ticks.toNat b with
      | .ok (d, b') => .ok () ⟨d, b', words⟩
      | .error fault => .error fault ⟨c, b, words⟩ := by
  rw [execute, run_get_bind, Cursor.waitTick]
  cases c.waitLeft.getD ticks.toNat with
  | zero => rfl
  | succ left =>
      simp only [Nat.add_one_ne_zero, if_false, Nat.add_one_sub_one]
      have hmove := run_displace c b words
      cases hstep : b.moveStep with
      | error fault =>
          rw [hstep] at hmove
          rw [run_bind_error hmove]
          rfl
      | ok b' =>
          rw [hstep] at hmove
          rw [run_bind_ok hmove]
          by_cases hlast : left = 0 <;> simp [hlast, bind, Except.bind] <;> rfl

/-- An action in place, if its samples can be had: the same as before, and a fault leaves
body and words as they are. -/
theorem run_execute (h : a.isUnbounded = false) (p : Program α) (id : AgentId)
    (view : Surroundings α) (c : Cursor) (b : Body α) (words : WordStream) :
    (execute p id view a).run ⟨c, b, words⟩ =
      match c.execute p id view b words a with
      | .ok (d, b', words') => .ok () ⟨d, b', words'⟩
      | .error fault => .error fault ⟨c, b, words⟩ := by
  by_cases ha : ∃ ticks, a = .wait ticks
  · obtain ⟨ticks, rfl⟩ := ha
    rw [run_execute_wait, Cursor.execute_wait]
    cases c.waitTick p ticks.toNat b <;> rfl
  · have ha : ∀ ticks, a ≠ .wait ticks := fun ticks heq => ha ⟨ticks, heq⟩
    obtain ⟨b', words', hperform, hrun⟩ := run_perform h id view c b words
    have hexecute : (execute p id view a).run ⟨c, b, words⟩ =
        (perform id view a >>= fun _ => changeCursor (·.advance p)).run ⟨c, b, words⟩ := by
      cases a with
      | wait ticks => exact absurd rfl (ha ticks)
      | _ => rfl
    rw [hexecute, run_bind_ok hrun, Cursor.execute_of_ne_wait ha, hperform]
    rfl

/-- What a step makes of cursor, body and words in place, given what `Cursor.step` returns. -/
def ending (b : Body α) (words : WordStream) :
    Cursor × Except (Fault α) (Turn α) → EStateM.Result (Fault α) (Midstep α) (StepReport α)
  | (d, .ok turn) => .ok turn.report ⟨d, turn.body, turn.words⟩
  | (d, .error fault) => .error fault ⟨d, b, words⟩

/-- A step in place comes to the same as one that returns what it changes. If the samples
of its action can be had, a step that fails has changed nothing but the cursor. -/
theorem run_step (p : Program α) (id : AgentId) (view : Surroundings α) (c : Cursor) (b : Body α)
    (words : WordStream)
    (h : ∀ node a, (c.found p (view.inRegion b.position)).action? = some (node, a) →
      a.isUnbounded = false) :
    (step p id view).run ⟨c, b, words⟩ = ending b words (c.step p id view b words) := by
  have houtcome := Cursor.outcome_step p id view c b words
  generalize c.step p id view b words = result at houtcome
  rw [step, run_get_bind]
  simp only
  rw [run_changeCursor_bind]
  cases houtcome with
  | idle hnone =>
      simp only [hnone]
      rfl
  | failed hsome hexecute =>
      have hrun := run_execute (h _ _ hsome) p id view
        (c.found p (view.inRegion b.position)).cursor.markRan b words
      rw [hexecute] at hrun
      simp only [hsome]
      rw [run_changeCursor_bind, run_bind_error hrun]
      rfl
  | executed hsome hexecute =>
      have hrun := run_execute (h _ _ hsome) p id view
        (c.found p (view.inRegion b.position)).cursor.markRan b words
      rw [hexecute] at hrun
      simp only [hsome]
      rw [run_changeCursor_bind, run_bind_ok hrun]
      rfl

end Stepping

end Flock
