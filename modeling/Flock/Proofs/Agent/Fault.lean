import Flock.Proofs.Cursor.Reachable

/-!
# The faults of a step

A step of an agent fails for one of two reasons: a wait is to move a body that was
never given a heading, or a random value is to be taken from a range whose width is
not finite. Actions that move a body by themselves give it a heading first, so they
never fail for want of one (`Body.perform_eq_error`).
-/

namespace Flock

/-- The faults that the step of an agent can come to. -/
def Fault.OfStep {α : Type} (fault : Fault α) : Prop :=
  fault = .noHeading ∨ fault = .unboundedRange

variable {α : Type} [Scalar α] {fault : Fault α}

namespace WordStream

variable {words : WordStream} {low high a b : α}

theorem sampleRange_eq_error (h : words.sampleRange low high = .error fault) :
    fault = .unboundedRange := by
  simp only [sampleRange] at h
  split at h
  · exact absurd h (by simp)
  · exact (Except.error.inj h).symm

theorem sampleBetween_eq_error (h : words.sampleBetween a b = .error fault) :
    fault = .unboundedRange := by
  by_cases hle : a ≤ b
  all_goals
    simp only [sampleBetween, hle, if_true, if_false] at h
    split at h
    · exact absurd h (by simp)
    · exact sampleRange_eq_error h

/-- What goes on after a sample fails for want of a finite range, if nothing that is done
with the sample fails otherwise. -/
theorem sampleBetween_bind_eq_error {β : Type} {next : α × WordStream → Except (Fault α) β}
    (hnext : ∀ drawn, next drawn = .error fault → fault = .unboundedRange)
    (h : (words.sampleBetween a b >>= next) = .error fault) : fault = .unboundedRange := by
  rcases bind_eq_error_iff.mp h with h | ⟨drawn, -, h⟩
  · exact sampleBetween_eq_error h
  · exact hnext drawn h

end WordStream

namespace Body

variable {b : Body α} {words : WordStream}

theorem moveStep_eq_error (h : b.moveStep = .error fault) :
    fault = .noHeading ∧ b.heading = none := by
  unfold moveStep at h
  split at h
  · next hheading => exact ⟨(Except.error.inj h).symm, hheading⟩
  · exact absurd h (by simp)

variable [Circular α] {id : AgentId} {view : Surroundings α}

/-- A body that has just been turned can move. -/
theorem moveStep_face_ne_error (b : Body α) (target : Point α) :
    (b.face target).moveStep ≠ .error fault := by
  intro h
  have hheading : (b.face target).heading = none := (moveStep_eq_error h).2
  exact absurd hheading (by simp [face, setHeading])

theorem moveStep_face_bind_ne_error {β : Type} (b : Body α) (target : Point α)
    (f : Body α → β) :
    ((b.face target).moveStep >>= fun moved => pure (f moved)) ≠ .error fault := by
  intro h
  rcases bind_eq_error_iff.mp h with h | ⟨moved, -, h⟩
  · exact moveStep_face_ne_error b target h
  · exact absurd h (by simp [pure, Except.pure])

theorem wander_eq_error {corner1 corner2 : Point α} {speed : α}
    (h : b.wander corner1 corner2 speed words = .error fault) : fault = .unboundedRange := by
  refine WordStream.sampleBetween_bind_eq_error (fun x hx => ?_) h
  refine WordStream.sampleBetween_bind_eq_error (fun y hy => ?_) hx
  exact absurd hy (moveStep_face_bind_ne_error _ _ _)

theorem follow_eq_error {radius speed : α}
    (h : b.follow id view radius speed words = .error fault) : fault = .unboundedRange := by
  refine WordStream.sampleBetween_bind_eq_error (fun x hx => ?_) h
  refine WordStream.sampleBetween_bind_eq_error (fun y hy => ?_) hx
  exact absurd hy (moveStep_face_bind_ne_error _ _ _)

/-- An action other than a wait fails only if it has to draw from a range that is not
finite. -/
theorem perform_eq_error {a : Action α} (h : b.perform id view words a = .error fault) :
    fault = .unboundedRange := by
  cases a with
  | wander corner1 corner2 speed => exact wander_eq_error h
  | follow label radius speed => exact follow_eq_error h
  | move target speed => exact absurd h (by simp [perform])
  | signal label => exact absurd h (by simp [perform])
  | unsignal label => exact absurd h (by simp [perform])
  | stop => exact absurd h (by simp [perform])
  | wait ticks => exact absurd h (by simp [perform])

end Body

namespace Cursor

variable {p : Program α} {c d : Cursor} {b : Body α} {words : WordStream}

theorem waitTick_eq_error {ticks : Nat} (h : c.waitTick p ticks b = .error fault) :
    fault = .noHeading ∧ b.heading = none := by
  unfold waitTick at h
  split at h
  · exact absurd h (by simp)
  · rcases bind_eq_error_iff.mp h with h | ⟨moved, -, h⟩
    · exact Body.moveStep_eq_error h
    · split at h <;> exact absurd h (by simp [pure, Except.pure])

variable [Circular α] {id : AgentId} {view : Surroundings α}

theorem execute_eq_error {a : Action α} (h : c.execute p id view b words a = .error fault) :
    fault.OfStep := by
  by_cases ha : ∃ ticks, a = .wait ticks
  · obtain ⟨ticks, rfl⟩ := ha
    rw [execute_wait] at h
    cases htick : c.waitTick p ticks.toNat b with
    | error other =>
        rw [htick, Except.map, Except.error.injEq] at h
        exact .inl (h ▸ (waitTick_eq_error htick).1)
    | ok result => exact absurd h (by simp [htick, Except.map])
  · rw [execute_of_ne_wait fun ticks heq => ha ⟨ticks, heq⟩] at h
    cases hperform : b.perform id view words a with
    | error other =>
        rw [hperform, Except.map, Except.error.injEq] at h
        exact .inr (h ▸ Body.perform_eq_error hperform)
    | ok result => exact absurd h (by simp [hperform, Except.map])

theorem step_eq_error (h : (c.step p id view b words).2 = .error fault) : fault.OfStep := by
  have houtcome := outcome_step p id view c b words
  generalize c.step p id view b words = result at houtcome h
  cases houtcome with
  | idle => exact absurd h (by simp)
  | failed _ hexecute =>
      obtain rfl := Except.error.inj h
      exact execute_eq_error hexecute
  | executed => exact absurd h (by simp)

end Cursor

/-- The step of an agent fails for want of a heading or of a finite range. -/
theorem Agent.step_eq_error [Circular α] {agent : Agent α} {id : AgentId} {view : Surroundings α}
    {words : WordStream} (h : (agent.step id view words).2 = .error fault) : fault.OfStep := by
  unfold Agent.step at h
  split at h
  · exact absurd h (by simp)
  · split at h
    · next hstep =>
      obtain rfl := Except.error.inj h
      exact Cursor.step_eq_error (congrArg Prod.snd hstep)
    · exact absurd h (by simp)

end Flock
