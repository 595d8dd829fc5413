import Flock.Proofs.Agent.Change
import Flock.Proofs.Agent.InPlace

/-!
# Bodies without a heading

A step whose samples can be had fails where a wait is to move a body that has no heading,
and nowhere else (`Cursor.step_eq_error_iff`). It has then changed nothing but the cursor
(`Cursor.run_step_of_error`). A body is given its first heading by an operation or by an
action, and nothing takes a heading away again, so a body that has been given one lets no
step fail that it goes through later (`Body.Later.step_eq_ok`).
-/

namespace Flock

variable {α : Type} [Scalar α]

namespace Cursor

variable {p : Program α} {inside : String → Bool} {c : Cursor} {b : Body α}

/-- The action that a step comes to can have its samples. -/
def CanSample (p : Program α) (inside : String → Bool) (c : Cursor) : Prop :=
  ∀ node a, (c.found p inside).action? = some (node, a) → a.isUnbounded = false

/-- A step comes to a wait with ticks left that is to move a body without a heading. -/
def IsHeadless (p : Program α) (inside : String → Bool) (c : Cursor) (b : Body α) : Prop :=
  b.heading = none ∧ ∃ node ticks,
    (c.found p inside).action? = some (node, .wait ticks) ∧
      (c.found p inside).cursor.waitLeft.getD ticks.toNat ≠ 0

/-- An action whose samples can be had fails where it is a wait that cannot move. -/
theorem faultOf?_eq_some_iff {a : Action α} {fault : Fault α} (h : a.isUnbounded = false) :
    c.faultOf? b a = some fault ↔ fault = .noHeading ∧ b.heading = none ∧
      ∃ ticks, a = .wait ticks ∧ c.waitLeft.getD ticks.toNat ≠ 0 := by
  by_cases ha : ∃ ticks, a = .wait ticks
  · obtain ⟨ticks, rfl⟩ := ha
    rw [faultOf?, Option.ite_none_left_eq_some, not_or, Option.not_isSome_iff_eq_none]
    constructor
    · rintro ⟨⟨hleft, hheading⟩, hfault⟩
      exact ⟨(Option.some.inj hfault).symm, hheading, ticks, rfl, hleft⟩
    · rintro ⟨rfl, hheading, other, hother, hleft⟩
      obtain rfl := Action.wait.inj hother
      exact ⟨⟨hleft, hheading⟩, rfl⟩
  · have ha : ∀ ticks, a ≠ .wait ticks := fun ticks heq => ha ⟨ticks, heq⟩
    simp [faultOf?_of_ne_wait ha, h, ha]

variable [Circular α] {id : AgentId} {view : Surroundings α} {words : WordStream}

/-- A body with a heading goes through every tick of a wait. -/
theorem execute_wait_of_heading (hheading : b.heading.isSome) (p : Program α) (c : Cursor)
    (id : AgentId) (view : Surroundings α) (words : WordStream) (ticks : UInt32) :
    ∃ d b', c.execute p id view b words (.wait ticks) = .ok (d, b', words) ∧
      c.waitTick p ticks.toNat b = .ok (d, b') := by
  have hfault : c.faultOf? b (.wait ticks) = none := by simp [faultOf?, hheading]
  have htick := waitTick_eq p c ticks b
  rw [hfault] at htick
  obtain ⟨d, b', htick⟩ := htick
  refine ⟨d, b', ?_, htick⟩
  rw [execute_wait, htick]
  rfl

/-- A step whose samples can be had fails for want of a heading, where a wait needs one. -/
theorem step_eq_error_iff (h : CanSample p (view.inRegion b.position) c) (id : AgentId)
    (words : WordStream) {fault : Fault α} :
    (c.step p id view b words).2 = .error fault ↔
      fault = .noHeading ∧ IsHeadless p (view.inRegion b.position) c b := by
  cases hdue : (c.found p (view.inRegion b.position)).action? with
  | none =>
      obtain ⟨d, effect, report, hstep, -⟩ :=
        step_of_faultOf?_eq_none p c view b (by simp [hdue]) id
      simp [hstep, IsHeadless, hdue]
  | some due =>
      obtain ⟨node, a⟩ := due
      have hiff := @faultOf?_eq_some_iff α _ (c.found p (view.inRegion b.position)).cursor b a
      have hheadless : IsHeadless p (view.inRegion b.position) c b ↔ b.heading = none ∧
          ∃ ticks, a = .wait ticks ∧
            (c.found p (view.inRegion b.position)).cursor.waitLeft.getD ticks.toNat ≠ 0 := by
        simp [IsHeadless, hdue]
      rw [hheadless, ← hiff (h node a hdue)]
      cases hfault : (c.found p (view.inRegion b.position)).cursor.faultOf? b a with
      | some other => rw [step_of_faultOf? hdue hfault, Except.error.injEq, Option.some.injEq]
      | none =>
          obtain ⟨d, effect, report, hstep, -⟩ := step_of_faultOf?_eq_none p c view b (by
            intro node' a' hdue'
            obtain ⟨rfl, rfl⟩ := Prod.mk.inj (Option.some.inj (hdue.symm.trans hdue'))
            exact hfault) id
          simp [hstep]

/-- A step that fails, though its samples can be had, has changed only the cursor. -/
theorem run_step_of_error (h : CanSample p (view.inRegion b.position) c) {fault : Fault α}
    (hfault : (c.step p id view b words).2 = .error fault) :
    (Stepping.step p id view).run ⟨c, b, words⟩ =
      .error fault ⟨(c.step p id view b words).1, b, words⟩ := by
  rw [Stepping.run_step p id view c b words h]
  generalize c.step p id view b words = result at hfault
  obtain ⟨d, ending⟩ := result
  obtain rfl : ending = .error fault := hfault
  rfl

end Cursor

namespace Body

variable [Circular α] {allowed : α → Prop} {b b' : Body α}

/-- Nothing that is done to a body takes its heading away. -/
theorem Change.heading (h : Change allowed b b') (hb : b.heading.isSome) : b'.heading.isSome := by
  cases h with
  | turned => rfl
  | placed => exact hb
  | sped => exact hb
  | halted => exact hb
  | labelled => exact hb
  | moved => exact hb

/-- A body comes from another one by operations and by steps of programs. A step that fails
leaves it as it is. -/
inductive Later (b : Body α) : Body α → Prop where
  | refl : Later b b
  | operated {b' b'' : Body α} (h : Later b b') (hoperation : Operation b' b'') : Later b b''
  | stepped {b' : Body α} (h : Later b b') {p : Program α} {c : Cursor} {id : AgentId}
      {view : Surroundings α} {words : WordStream} {turn : Turn α}
      (hstep : (c.step p id view b' words).2 = .ok turn) : Later b turn.body

theorem Later.changes (h : Later b b') : Changes (fun _ => True) b b' := by
  induction h with
  | refl => exact .refl
  | operated _ hoperation ih => exact ih.trans (hoperation.changes trivial)
  | stepped _ hstep ih => exact ih.trans (Cursor.changes_step hstep fun _ _ _ _ _ => trivial)

/-- A body that has been given a heading lets no later step fail. -/
theorem Later.step_eq_ok (h : Later b b') (hb : b.heading.isSome) {p : Program α} {c : Cursor}
    {view : Surroundings α} (hsample : Cursor.CanSample p (view.inRegion b'.position) c)
    (id : AgentId) (words : WordStream) : ∃ turn, (c.step p id view b' words).2 = .ok turn := by
  cases hstep : (c.step p id view b' words).2 with
  | ok turn => exact ⟨turn, rfl⟩
  | error fault =>
      obtain ⟨-, hheading, -⟩ := (Cursor.step_eq_error_iff hsample id words).mp hstep
      exact absurd (h.changes.keep (fun _ _ => Change.heading) hb) (by simp [hheading])

end Body

end Flock
