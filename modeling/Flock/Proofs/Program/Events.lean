import Flock.Proofs.Program.Script

/-!
# Events and their pieces

Checking an event either refuses it or gives the piece that it adds to a program.
`Event.Valid` says which events are accepted, and `Piece.event` gives back the
event that a piece came from, so checking loses nothing (`event_of_piece_eq_ok`).
-/

namespace Flock

/-- A chain of checks succeeds if and only if each of them does. -/
theorem bind_eq_ok_iff {ε β γ : Type} {x : Except ε β} {f : β → Except ε γ} {c : γ} :
    (x >>= f) = .ok c ↔ ∃ b, x = .ok b ∧ f b = .ok c := by
  cases x with
  | error e => simp [bind, Except.bind]
  | ok b => simp [bind, Except.bind]

/-- A chain of checks fails if and only if one of them does, those before it having
succeeded. -/
theorem bind_eq_error_iff {ε β γ : Type} {x : Except ε β} {f : β → Except ε γ} {e : ε} :
    (x >>= f) = .error e ↔ x = .error e ∨ ∃ b, x = .ok b ∧ f b = .error e := by
  cases x with
  | error other => simp [bind, Except.bind]
  | ok b => simp [bind, Except.bind]

/-- The event that a piece comes from. -/
def Piece.event {α : Type} : Piece α → Event α
  | action a => a.event
  | start loop => loop.event
  | finish => .finish

namespace Event

variable {α : Type}

/-- Whether the event starts a loop. -/
def isStart : Event α → Bool
  | startTimes _ | startUntil _ | startForever => true
  | _ => false

/-- Whether the event ends a loop. -/
def isFinish : Event α → Bool
  | finish => true
  | _ => false

theorem countP_first (test : Event α → Bool) (event : Event α) (events : List (Event α)) :
    (event :: events).countP test = [event].countP test + events.countP test := by
  rw [← List.countP_append, List.singleton_append]

theorem isStart_event_action (a : Action α) : a.event.isStart = false := by cases a <;> rfl

theorem isFinish_event_action (a : Action α) : a.event.isFinish = false := by cases a <;> rfl

theorem isStart_event_loop (loop : Loop) : (loop.event : Event α).isStart = true := by
  cases loop <;> rfl

theorem isFinish_event_loop (loop : Loop) : (loop.event : Event α).isFinish = false := by
  cases loop <;> rfl

variable [Scalar α]

/-- A count is valid if it fits into 32 bits. -/
def ValidCount (value : Int64) : Prop := 0 ≤ value.toInt ∧ value.toInt ≤ 4294967295

/-- Coordinates and speeds have to be finite, a radius moreover not below zero, and
counts have to fit into 32 bits. -/
def Valid : Event α → Prop
  | move target speed =>
    Scalar.isFinite target.x ∧ Scalar.isFinite target.y ∧ Scalar.isFinite speed
  | wander corner1 corner2 speed =>
    (Scalar.isFinite corner1.x ∧ Scalar.isFinite corner1.y) ∧
      (Scalar.isFinite corner2.x ∧ Scalar.isFinite corner2.y) ∧ Scalar.isFinite speed
  | follow _ radius speed =>
    (Scalar.isFinite radius ∧ ¬radius < Scalar.zero) ∧ Scalar.isFinite speed
  | wait ticks => ValidCount ticks
  | startTimes times => ValidCount times
  | signal _ | unsignal _ | stop | startUntil _ | startForever | finish => True

theorem finite_eq_ok_iff {name : String} {value checked : α} :
    finite name value = .ok checked ↔ Scalar.isFinite value ∧ value = checked := by
  by_cases h : Scalar.isFinite value <;> simp [finite, h]

theorem finitePoint_eq_ok_iff {name : String} {p checked : Point α} :
    finitePoint name p = .ok checked ↔
      (Scalar.isFinite p.x ∧ Scalar.isFinite p.y) ∧ p = checked := by
  simp only [finitePoint, bind_eq_ok_iff, finite_eq_ok_iff, pure, Except.pure, Except.ok.injEq]
  constructor
  · rintro ⟨x, ⟨hx, rfl⟩, y, ⟨hy, rfl⟩, rfl⟩
    exact ⟨⟨hx, hy⟩, rfl⟩
  · rintro ⟨⟨hx, hy⟩, rfl⟩
    exact ⟨p.x, ⟨hx, rfl⟩, p.y, ⟨hy, rfl⟩, rfl⟩

theorem radius_eq_ok_iff {value checked : α} :
    radius value = .ok checked ↔
      (Scalar.isFinite value ∧ ¬value < Scalar.zero) ∧ value = checked := by
  simp only [radius, bind_eq_ok_iff, finite_eq_ok_iff]
  by_cases h : value < Scalar.zero <;> simp [h]

theorem count_eq_ok_iff {name : String} {value : Int64} {checked : UInt32} :
    (count name value : Except (Rejection α) UInt32) = .ok checked ↔
      ValidCount value ∧ .ofNat value.toInt.toNat = checked := by
  have hrange : (0 ≤ value.toInt ∧ value.toInt < UInt32.size) ↔ ValidCount value := by
    simp only [ValidCount, UInt32.size]
    omega
  by_cases h : ValidCount value
  · rw [count, if_pos (hrange.mpr h), Except.ok.injEq]
    exact ⟨fun heq => ⟨h, heq⟩, fun heq => heq.2⟩
  · rw [count, if_neg (mt hrange.mp h)]
    exact ⟨fun heq => absurd heq (by simp), fun heq => absurd heq.1 h⟩

/-- A valid count survives the way through 32 bits. -/
theorem ofInt_toNat_ofNat {value : Int64} (h : ValidCount value) :
    Int64.ofInt (UInt32.ofNat value.toInt.toNat).toNat = value := by
  have hlt : value.toInt.toNat < 2 ^ 32 := by
    have := h.2
    omega
  rw [UInt32.toNat_ofNat_of_lt' hlt, Int.toNat_of_nonneg h.1, Int64.ofInt_toInt]

/-- Checking an event that is accepted loses nothing of it. -/
theorem event_of_piece_eq_ok {event : Event α} {piece : Piece α} (h : event.piece = .ok piece) :
    event.Valid ∧ piece.event = event := by
  cases event <;>
    simp only [Event.piece, bind_eq_ok_iff, finite_eq_ok_iff, finitePoint_eq_ok_iff,
      radius_eq_ok_iff, count_eq_ok_iff, pure, Except.pure, Except.ok.injEq] at h
  case move target speed =>
    obtain ⟨_, ⟨⟨hx, hy⟩, rfl⟩, _, ⟨hspeed, rfl⟩, rfl⟩ := h
    exact ⟨⟨hx, hy, hspeed⟩, rfl⟩
  case wander corner1 corner2 speed =>
    obtain ⟨_, ⟨h1, rfl⟩, _, ⟨h2, rfl⟩, _, ⟨hspeed, rfl⟩, rfl⟩ := h
    exact ⟨⟨h1, h2, hspeed⟩, rfl⟩
  case follow label radius speed =>
    obtain ⟨_, ⟨hradius, rfl⟩, _, ⟨hspeed, rfl⟩, rfl⟩ := h
    exact ⟨⟨hradius, hspeed⟩, rfl⟩
  case wait ticks =>
    obtain ⟨_, ⟨hticks, rfl⟩, rfl⟩ := h
    exact ⟨hticks, congrArg Event.wait (ofInt_toNat_ofNat hticks)⟩
  case startTimes times =>
    obtain ⟨_, ⟨htimes, rfl⟩, rfl⟩ := h
    exact ⟨htimes, congrArg Event.startTimes (ofInt_toNat_ofNat htimes)⟩
  all_goals
    subst h
    exact ⟨trivial, rfl⟩

/-- A valid event is accepted. -/
theorem piece_eq_ok_of_valid {event : Event α} (h : event.Valid) :
    ∃ piece, event.piece = .ok piece := by
  cases event <;>
    simp only [Event.piece, bind_eq_ok_iff, finite_eq_ok_iff, finitePoint_eq_ok_iff,
      radius_eq_ok_iff, count_eq_ok_iff, pure, Except.pure, Except.ok.injEq, exists_eq']
  case move target speed => exact ⟨_, _, ⟨⟨h.1, h.2.1⟩, rfl⟩, _, ⟨h.2.2, rfl⟩, rfl⟩
  case wander corner1 corner2 speed =>
    exact ⟨_, _, ⟨h.1, rfl⟩, _, ⟨h.2.1, rfl⟩, _, ⟨h.2.2, rfl⟩, rfl⟩
  case follow label radius speed => exact ⟨_, _, ⟨h.1, rfl⟩, _, ⟨h.2, rfl⟩, rfl⟩
  case wait ticks => exact ⟨_, _, ⟨h, rfl⟩, rfl⟩
  case startTimes times => exact ⟨_, _, ⟨h, rfl⟩, rfl⟩

end Event

end Flock
