import Flock.Proofs.Program.Building

/-!
# Sessions with a builder

A builder is used again and again: events are added to it one at a time, a program under
construction is given up, or it is concluded, whatever has been refused before
(`Builder.Request`). What comes back depends only on the events added since the builder
last started over, and not on how it was used before that (`Builder.replies_of_requests`).

Which event is refused can be told without building anything, from the events in front of
it (`Event.firstRefusal?`): its arguments are outside their range, or it ends a loop where
none is open.
-/

namespace Flock

variable {α : Type} [Scalar α]

namespace Event

variable {event : Event α} {rejection : Rejection α} {openCount : Nat}

/-- Why an event is refused where a number of loops are open, if it is. -/
def refusal? (openCount : Nat) (event : Event α) : Option (Rejection α) :=
  match event.piece with
  | .error rejection => some rejection
  | .ok .finish => if openCount = 0 then some .unmatchedEnd else none
  | .ok _ => none

/-- The number of loops open after an event that is not refused. -/
def openAfter (openCount : Nat) (event : Event α) : Nat :=
  openCount + [event].countP isStart - [event].countP isFinish

/-- Why the first event that is refused is so, with a number of loops open in front. -/
def firstRefusal? : Nat → List (Event α) → Option (Rejection α)
  | _, [] => none
  | openCount, event :: rest =>
    (event.refusal? openCount).or (firstRefusal? (event.openAfter openCount) rest)

/-! An event is never refused for loops that are left open. -/

theorem finite_ne_unclosed {name : String} {value : α} {count : Nat} :
    finite name value ≠ .error (.unclosed count) := by
  unfold finite
  split <;> simp

theorem finitePoint_ne_unclosed {name : String} {p : Point α} {count : Nat} :
    finitePoint name p ≠ .error (.unclosed count) := by
  intro h
  rcases bind_eq_error_iff.mp h with h | ⟨x, -, h⟩
  · exact finite_ne_unclosed h
  · rcases bind_eq_error_iff.mp h with h | ⟨y, -, h⟩
    · exact finite_ne_unclosed h
    · exact absurd h (by simp [pure, Except.pure])

theorem radius_ne_unclosed {value : α} {count : Nat} :
    radius value ≠ .error (.unclosed count) := by
  intro h
  rcases bind_eq_error_iff.mp h with h | ⟨checked, -, h⟩
  · exact finite_ne_unclosed h
  · split at h <;> exact absurd h (by simp)

theorem count_ne_unclosed {name : String} {value : Int64} {open' : Nat} :
    (count name value : Except (Rejection α) UInt32) ≠ .error (.unclosed open') := by
  unfold count
  split <;> simp

theorem piece_ne_unclosed {count : Nat} : event.piece ≠ .error (.unclosed count) := by
  cases event <;>
    simp [piece, bind_eq_error_iff, finite_ne_unclosed, finitePoint_ne_unclosed,
      radius_ne_unclosed, count_ne_unclosed, pure, Except.pure]

theorem refusal?_ne_unclosed {count : Nat} : event.refusal? openCount ≠ some (.unclosed count) := by
  unfold refusal?
  split
  · next h =>
    rintro ⟨rfl⟩
    exact piece_ne_unclosed h
  · split <;> simp
  · simp

theorem firstRefusal?_ne_unclosed {events : List (Event α)} {count : Nat} :
    firstRefusal? openCount events ≠ some (.unclosed count) := by
  induction events generalizing openCount with
  | nil => simp [firstRefusal?]
  | cons event rest ih =>
      rw [firstRefusal?, Ne, Option.or_eq_some_iff, not_or]
      exact ⟨refusal?_ne_unclosed, fun h => ih h.2⟩

end Event

namespace Builder

variable {b next : Builder α} {event : Event α} {events : List (Event α)}
  {rejection : Rejection α}

theorem accept_eq_error_iff :
    b.accept event = .error rejection ↔ event.refusal? b.openCount = some rejection := by
  unfold accept Event.refusal?
  cases event.piece with
  | error other => simp [bind, Except.bind]
  | ok piece =>
      cases piece with
      | action a => simp [bind, Except.bind, place]
      | start loop => simp [bind, Except.bind, place]
      | finish =>
          cases hblocks : b.blocks <;> simp [bind, Except.bind, place, openCount, hblocks]

theorem accept_eq_ok_of_refusal? (h : event.refusal? b.openCount = none) :
    ∃ next, b.accept event = .ok next := by
  cases haccept : b.accept event with
  | ok next => exact ⟨next, rfl⟩
  | error rejection => exact absurd (accept_eq_error_iff.mp haccept) (by simp [h])

theorem openCount_of_accept (hb : b.Sound) (h : b.accept event = .ok next) :
    next.openCount = event.openAfter b.openCount := by
  obtain ⟨-, -, -, hcount⟩ := accept_spec hb h
  unfold Event.openAfter
  omega

/-- A stream is refused for the first of its events that is. -/
theorem foldlM_accept_eq_error_iff (hb : b.Sound) :
    events.foldlM accept b = .error rejection ↔
      Event.firstRefusal? b.openCount events = some rejection := by
  induction events generalizing b with
  | nil => simp [Event.firstRefusal?, pure, Except.pure]
  | cons event rest ih =>
      rw [List.foldlM_cons, Event.firstRefusal?]
      cases hrefusal : event.refusal? b.openCount with
      | some other =>
          rw [accept_eq_error_iff.mpr hrefusal]
          simp [bind, Except.bind]
      | none =>
          obtain ⟨next, hnext⟩ := accept_eq_ok_of_refusal? hrefusal
          rw [hnext, Option.none_or, ← openCount_of_accept hb hnext,
            ← ih (accept_spec hb hnext).2.1]
          rfl

/-- The state of a builder to which events have been added from the start: what they build,
or a rejection of the first that was refused. -/
def Holds (b : Builder α) (events : List (Event α)) : Prop :=
  match events.foldlM accept empty with
  | .ok built => b = built
  | .error rejection => b.rejection = some rejection

theorem holds_empty : (empty : Builder α).Holds [] := rfl

theorem Holds.add (h : b.Holds events) (event : Event α) :
    (b.add event).Holds (events ++ [event]) := by
  unfold Holds at h ⊢
  rw [List.foldlM_append]
  cases hfold : events.foldlM accept empty with
  | error rejection =>
      rw [hfold] at h
      simp only at h
      simp [bind, Except.bind, Builder.add, h]
  | ok built =>
      rw [hfold] at h
      obtain rfl : b = built := h
      have hnone := (foldlM_accept_spec sound_empty hfold).1.unrejected
      cases haccept : b.accept event <;>
        simp [bind, Except.bind, Builder.add, hnone, haccept, pure, Except.pure]

/-- The rejection that a builder has recorded is that of the first event refused. -/
theorem Holds.rejection_eq (h : b.Holds events) :
    b.rejection = Event.firstRefusal? 0 events := by
  have hiff (rejection : Rejection α) : events.foldlM accept empty = .error rejection ↔
      Event.firstRefusal? 0 events = some rejection := foldlM_accept_eq_error_iff sound_empty
  unfold Holds at h
  cases hfold : events.foldlM accept empty with
  | error rejection =>
      rw [hfold] at h
      exact h.trans ((hiff rejection).mp hfold).symm
  | ok built =>
      rw [hfold] at h
      obtain rfl : b = built := h
      rw [(foldlM_accept_spec sound_empty hfold).1.unrejected, eq_comm,
        Option.eq_none_iff_forall_ne_some]
      intro rejection hrejection
      exact absurd (((hiff rejection).mpr hrejection).symm.trans hfold) (by simp)

/-- A program concluded is the one built from the whole stream. -/
theorem Holds.program_eq (h : b.Holds events) : b.program = Program.ofEvents events := by
  unfold Holds at h
  unfold Program.ofEvents
  cases hfold : events.foldlM accept empty with
  | error rejection =>
      rw [hfold] at h
      simp only at h
      simp [bind, Except.bind, program, h]
  | ok built =>
      rw [hfold] at h
      obtain rfl : b = built := h
      rfl

/-- What can be asked of a builder. -/
inductive Request (α : Type) where
  | add (event : Event α)
  /-- Give up the program under construction. -/
  | restart
  | conclude

/-- What comes back of a request. -/
inductive Reply (α : Type) where
  /-- An event was taken in, or there is a rejection. -/
  | added (rejection : Option (Rejection α))
  | restarted
  | concluded (outcome : Except (Rejection α) (Program α))

/-- The builder after a request, and what comes back. -/
def respond (b : Builder α) : Request α → Builder α × Reply α
  | .add event => (b.add event, .added (b.add event).rejection)
  | .restart => (empty, .restarted)
  | .conclude => (b.conclude.2, .concluded b.conclude.1)

/-- The builder after a list of requests, and what comes back of each of them. -/
def respondAll (b : Builder α) : List (Request α) → Builder α × List (Reply α)
  | [] => (b, [])
  | request :: rest =>
    let result := (b.respond request).1.respondAll rest
    (result.1, (b.respond request).2 :: result.2)

/-- What has to come back of requests to a builder that started over before some events. An
event is taken in if neither it nor one in front of it is refused, and a program concluded
is the one built from all the events since the builder started over. -/
def expected : List (Event α) → List (Request α) → List (Reply α)
  | _, [] => []
  | events, .add event :: rest =>
    .added (Event.firstRefusal? 0 (events ++ [event])) :: expected (events ++ [event]) rest
  | _, .restart :: rest => .restarted :: expected [] rest
  | events, .conclude :: rest => .concluded (Program.ofEvents events) :: expected [] rest

theorem Holds.respondAll_eq (h : b.Holds events) (requests : List (Request α)) :
    (b.respondAll requests).2 = expected events requests := by
  induction requests generalizing b events with
  | nil => rfl
  | cons request rest ih =>
      cases request with
      | add event =>
          rw [respondAll, expected, ← (h.add event).rejection_eq, ← ih (h.add event)]
          rfl
      | restart =>
          rw [respondAll, expected, ← ih holds_empty]
          rfl
      | conclude =>
          rw [respondAll, expected, ← h.program_eq, ← ih holds_empty]
          rfl

theorem respondAll_append (b : Builder α) (requests : List (Request α)) (last : Request α) :
    (b.respondAll (requests ++ [last])).1 = ((b.respondAll requests).1.respond last).1 := by
  induction requests generalizing b with
  | nil => rfl
  | cons request rest ih => exact ih _

/-- A stream with a refused event gives no program. -/
theorem ofEvents_of_firstRefusal? (h : Event.firstRefusal? 0 events = some rejection) :
    Program.ofEvents events = .error rejection :=
  bind_eq_error_iff.mpr (.inl ((foldlM_accept_eq_error_iff sound_empty).mpr h))

/-- Loops are reported as left open only if no event is refused. -/
theorem ofEvents_eq_unclosed_iff {count : Nat} :
    Program.ofEvents events = .error (.unclosed count) ↔
      Event.firstRefusal? 0 events = none ∧
        events.countP Event.isStart = events.countP Event.isFinish + count ∧ 0 < count := by
  cases hrefusal : Event.firstRefusal? 0 events with
  | some rejection =>
      have hne : rejection ≠ .unclosed count := by
        rintro rfl
        exact Event.firstRefusal?_ne_unclosed hrefusal
      simp [ofEvents_of_firstRefusal? hrefusal, hne]
  | none =>
      cases hfold : events.foldlM accept (empty : Builder α) with
      | error rejection =>
          have hsome := (foldlM_accept_eq_error_iff sound_empty).mp hfold
          exact absurd (hsome.symm.trans hrefusal) (by simp)
      | ok built =>
          obtain ⟨hsound, -, hcount, -⟩ := foldlM_accept_spec sound_empty hfold
          have hprogram : Program.ofEvents events = built.program := by
            rw [Program.ofEvents, hfold]
            rfl
          have hzero : (empty : Builder α).openCount = 0 := rfl
          rw [hprogram, program, hsound.unrejected]
          simp only [true_and]
          split
          · next hblocks =>
            have hopen : built.openCount = 0 := by simpa [openCount] using hblocks
            simp only [reduceCtorEq, false_iff]
            omega
          · next hblocks =>
            have hopen : built.openCount ≠ 0 := by simpa [openCount] using hblocks
            simp only [Except.error.injEq, Rejection.unclosed.injEq]
            omega

/-- What comes back of any requests to a new builder. An event is taken in if and only if
neither it nor one in front of it, since the builder last started over, is refused, and
otherwise the first of these decides the answer. A program that is concluded is the one
built from all the events added since then, also those after a refusal. Then, or when a
program is given up, the builder is as good as new. So a refused event leaves no program to
be had, and loops left open are reported only where no event is refused, with their number. -/
theorem replies_of_requests (requests : List (Request α)) :
    (empty.respondAll requests).2 = expected [] requests ∧
    (empty.respondAll (requests ++ [.restart])).1 = empty ∧
    (empty.respondAll (requests ++ [.conclude])).1 = empty ∧
    ∀ events : List (Event α),
      (∀ rejection, Event.firstRefusal? 0 events = some rejection →
        Program.ofEvents events = .error rejection) ∧
      ∀ count, Program.ofEvents events = .error (.unclosed count) ↔
        Event.firstRefusal? 0 events = none ∧
          events.countP Event.isStart = events.countP Event.isFinish + count ∧ 0 < count :=
  ⟨holds_empty.respondAll_eq requests, respondAll_append empty requests .restart,
    respondAll_append empty requests .conclude,
    fun _ => ⟨fun _ => ofEvents_of_firstRefusal?, fun _ => ofEvents_eq_unclosed_iff⟩⟩

/-- A stray end of a loop is answered for until the program is concluded, and forgotten
then. -/
example : ((empty : Builder Float).respondAll
      [.add .finish, .add .stop, .conclude, .add .stop, .conclude]).2 =
    [.added (some .unmatchedEnd), .added (some .unmatchedEnd), .concluded (.error .unmatchedEnd),
      .added none, .concluded (.ok ⟨#[.action .stop], [0]⟩)] := rfl

end Builder

end Flock
