import Flock.Proofs.Agent.Effect
import Mathlib.Logic.Relation

/-!
# Changes of a body

Whatever is done to a body from outside (`Body.Operation`), and whatever a step of a program
does to it, is made of a few changes (`Body.Change`): the body is placed, takes up a speed,
is turned, broadcasts a label, or moves along its heading. So what each of these keeps of a
body is kept by every history of operations and steps, of any programs
(`Body.Operation.change`, `Cursor.changes_step`).
-/

namespace Flock

variable {α : Type} [Scalar α]

/-- The headings that there are: those with components in `[-1, 1]`, those of an angle, and
the one that faces east. -/
inductive Heading.Made [Circular α] : Heading α → Prop where
  | ofComponents {dx dy : α} {h : Heading α} (hmade : Heading.ofComponents dx dy = .ok h) : Made h
  | ofAngle (angle : α) : Made (Heading.ofAngle angle)
  | east : Made Heading.east

omit [Scalar α] in
/-- The speed that an action takes up. -/
def Action.speed? : Action α → Option α
  | .move _ speed => some speed
  | .wander _ _ speed => some speed
  | .follow _ _ speed => some speed
  | _ => none

theorem Fault.requireFinite_eq_ok {name : String} {value : α}
    (h : Fault.requireFinite name value = .ok ()) : Scalar.isFinite value := by
  unfold Fault.requireFinite at h
  split at h
  · next hfinite => exact hfinite
  · exact absurd h (by simp)

namespace Body

variable {b b' : Body α}

theorem setPosition_eq_ok {p : Point α} (h : b.setPosition p = .ok b') :
    p.check = .ok () ∧ b' = { b with position := p } := by
  obtain ⟨⟨⟩, hcheck, h⟩ := bind_eq_ok_iff.mp h
  exact ⟨hcheck, (Except.ok.inj h).symm⟩

theorem setSpeed_eq_ok {speed : α} (h : b.setSpeed speed = .ok b') :
    Scalar.isFinite speed ∧ b' = { b with speed } := by
  obtain ⟨⟨⟩, hcheck, h⟩ := bind_eq_ok_iff.mp h
  exact ⟨Fault.requireFinite_eq_ok hcheck, (Except.ok.inj h).symm⟩

variable [Circular α]

/-- What can be done to a body from outside. -/
inductive Operation : Body α → Body α → Prop where
  | placed {b b' : Body α} {p : Point α} (h : b.setPosition p = .ok b') : Operation b b'
  | sped {b b' : Body α} {speed : α} (h : b.setSpeed speed = .ok b') : Operation b b'
  | turned (b : Body α) {heading : Heading α} (h : heading.Made) :
      Operation b (b.setHeading heading)
  | faced (b : Body α) (target : Point α) : Operation b (b.face target)
  | halted (b : Body α) : Operation b b.halt
  | signalled (b : Body α) (label : String) : Operation b (b.signal label)
  | unsignalled (b : Body α) (label : String) : Operation b (b.unsignal label)
  | moved {b b' : Body α} (h : b.moveStep = .ok b') : Operation b b'

/-- One change of a body, the speeds taken up being among those allowed. -/
inductive Change (allowed : α → Prop) : Body α → Body α → Prop where
  | placed (b : Body α) {p : Point α} (h : p.check = .ok ()) :
      Change allowed b { b with position := p }
  | sped (b : Body α) {speed : α} (h : allowed speed) : Change allowed b { b with speed }
  | halted (b : Body α) : Change allowed b b.halt
  | turned (b : Body α) {heading : Heading α} (h : heading.Made) :
      Change allowed b (b.setHeading heading)
  | labelled (b : Body α) (label : String) : Change allowed b (b.signal label)
  | moved (b : Body α) {heading : Heading α} (h : b.heading = some heading) :
      Change allowed b { b with
        position := b.position.offset (heading.dx * b.speed) (heading.dy * b.speed) }

/-- A number of changes of a body, one after the other. -/
abbrev Changes (allowed : α → Prop) : Body α → Body α → Prop :=
  Relation.ReflTransGen (Change allowed)

variable {allowed : α → Prop}

/-- What is kept by each change is kept by a number of them. -/
theorem Changes.keep {P : Body α → Prop} (hP : ∀ b b', Change allowed b b' → P b → P b')
    (h : Changes allowed b b') (hb : P b) : P b' := by
  induction h with
  | refl => exact hb
  | tail _ hlast ih => exact hP _ _ hlast ih

theorem changes_unsignal (b : Body α) (label : String) : Changes allowed b (b.unsignal label) := by
  unfold unsignal
  split
  · exact .single (.labelled b "")
  · exact .refl

/-- An operation is made of changes; the only speed that it can take up is the one that the
body has after it. -/
theorem Operation.changes (h : Operation b b') (hspeed : allowed b'.speed) :
    Changes allowed b b' := by
  cases h with
  | placed h =>
      obtain ⟨hcheck, rfl⟩ := setPosition_eq_ok h
      exact .single (.placed b hcheck)
  | sped h =>
      obtain ⟨-, rfl⟩ := setSpeed_eq_ok h
      exact .single (.sped b hspeed)
  | turned h => exact .single (.turned b h)
  | faced target => exact .single (.turned b (.ofAngle _))
  | halted => exact .single (.halted b)
  | signalled label => exact .single (.labelled b label)
  | unsignalled label => exact changes_unsignal b label
  | moved h =>
      obtain ⟨heading, hheading, rfl⟩ := moveStep_eq_ok h
      exact .single (.moved b hheading)

theorem changes_stride (b : Body α) {speed : α} (h : allowed speed) (target : Point α) :
    Changes allowed b (({ b with speed } : Body α).stride target) := by
  let sped : Body α := { b with speed }
  have hface : Change allowed sped (sped.face target) := .turned sped (.ofAngle _)
  exact ((Relation.ReflTransGen.single (.sped b h)).tail hface).tail (.moved (sped.face target) rfl)

/-- What an action does is made of changes, the speed taken up being the one that it names. -/
theorem Effect.changes {a : Action α} (h : b.Effect a b') (hspeed : ∀ v ∈ a.speed?, allowed v) :
    Changes allowed b b' := by
  cases h with
  | move target speed =>
      have hsped := Relation.ReflTransGen.single (Change.sped b (hspeed speed rfl))
      exact hsped.tail (.turned _ (.ofAngle _))
  | wander corner1 corner2 speed target => exact changes_stride b (hspeed speed rfl) target
  | follow label radius speed target => exact changes_stride b (hspeed speed rfl) target
  | signal label => exact .single (.labelled b label)
  | unsignal label => exact changes_unsignal b label
  | stop => exact .single (.halted b)
  | stay ticks => exact .refl
  | keepCourse ticks hheading => exact .single (.moved b hheading)

end Body

namespace Cursor

variable [Circular α] {allowed : α → Prop} {p : Program α} {c : Cursor} {b : Body α}
  {id : AgentId} {view : Surroundings α} {words : WordStream}

/-- A step is made of changes, the speeds taken up being those that the program names. -/
theorem changes_step {turn : Turn α} (h : (c.step p id view b words).2 = .ok turn)
    (hspeeds : ∀ node a, p.node? node = some (.action a) → ∀ v ∈ a.speed?, allowed v) :
    Body.Changes allowed b turn.body := by
  obtain ⟨hidle, heffect⟩ := effect_step h
  cases hexecuted : turn.report.executed with
  | none => rw [(hidle hexecuted).1]
  | some due =>
      obtain ⟨hnode, hdone⟩ := heffect due.1 due.2 hexecuted
      exact hdone.changes (hspeeds due.1 due.2 hnode)

end Cursor

end Flock
