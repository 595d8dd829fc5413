import Flock.Proofs.Cursor.Search

/-!
# Reachable cursors

Every part of a step keeps a cursor sound: closing what has come to its end, the
search for the next action, and the action itself. So every cursor is sound that a
program can come to, whatever bodies, surroundings and random words its steps are
taken with (`Cursor.sound_of_reachable`).
-/

namespace Flock

namespace Cursor

variable {α : Type} {p : Program α} {inside : String → Bool} {c d : Cursor}

/-! Closing what has come to its end. -/

theorem aroundDone?_eq_none_iff {done : Frame → Bool} {frames : List Frame} :
    aroundDone? done frames = none ↔ ∀ g ∈ frames, done g = false := by
  induction frames with
  | nil => simp [aroundDone?]
  | cons f frames ih => simp [aroundDone?, ih, and_comm]

/-- The loop closed is the outermost of those that have come to their end. -/
theorem aroundDone?_eq_some {done : Frame → Bool} {frames outer : List Frame}
    (h : aroundDone? done frames = some outer) :
    ∃ inner f, frames = inner ++ f :: outer ∧ done f ∧ ∀ g ∈ outer, done g = false := by
  induction frames with
  | nil => simp [aroundDone?] at h
  | cons f frames ih =>
      rw [aroundDone?] at h
      cases hrest : aroundDone? done frames with
      | none =>
          have hf : done f ∧ frames = outer := by simpa [hrest] using h
          obtain ⟨hdone, rfl⟩ := hf
          exact ⟨[], f, rfl, hdone, aroundDone?_eq_none_iff.mp hrest⟩
      | some rest =>
          rw [hrest, Option.some_or, Option.some.injEq] at h
          subst h
          obtain ⟨inner, g, hsplit, hg⟩ := ih hrest
          exact ⟨f :: inner, g, by rw [hsplit, List.cons_append], hg⟩

theorem closeFinished_of_none (h : aroundDone? (·.isDone p inside) c.frames = none) :
    c.closeFinished p inside = (c, 0) := by
  simp [closeFinished, h]

theorem closeFinished_of_some {outer : List Frame}
    (h : aroundDone? (·.isDone p inside) c.frames = some outer) :
    (c.closeFinished p inside).1 =
      ⟨(settle p inside c.index outer).1, (settle p inside c.index outer).2.1, none⟩ := by
  simp [closeFinished, h]

/-- The innermost loop left open is not done, so no loop is. -/
theorem not_isDone_settle {index : Nat} {frames : List Frame}
    (h : ∀ g ∈ frames, g.isDone p inside = false) :
    ∀ g ∈ (settle p inside index frames).2.1, g.isDone p inside = false := by
  induction frames with
  | nil => simp [settle]
  | cons f outer ih =>
      have houter := fun g hg => h g (List.mem_cons_of_mem _ hg)
      simp only [settle]
      split
      · exact ih houter
      · next hdone => exact List.forall_mem_cons.mpr ⟨by simpa using hdone, houter⟩

/-- After the first phase of a step no loop is done any more. -/
theorem not_isDone_closeFinished (c : Cursor) :
    ∀ g ∈ (c.closeFinished p inside).1.frames, g.isDone p inside = false := by
  cases h : aroundDone? (·.isDone p inside) c.frames with
  | none =>
      rw [closeFinished_of_none h]
      exact aroundDone?_eq_none_iff.mp h
  | some outer =>
      obtain ⟨-, -, -, -, houter⟩ := aroundDone?_eq_some h
      rw [closeFinished_of_some h]
      exact not_isDone_settle houter

/-- To close a loop is to hop out of it and of those that come to their end with it. -/
theorem leads_settle (p : Program α) (inside : String → Bool) (index : Nat)
    (frames : List Frame) :
    ∃ n, Leads p inside n ((⟨index, frames, none⟩ : Cursor).advance p)
      ⟨(settle p inside index frames).1, (settle p inside index frames).2.1, none⟩ := by
  induction frames with
  | nil => exact ⟨0, .refl _⟩
  | cons f outer ih =>
      simp only [settle]
      split
      · next hdone =>
        obtain ⟨n, hleads⟩ := ih
        exact ⟨n + 1, .closed (hop_of_topDone rfl hdone) hleads⟩
      · exact ⟨0, .refl _⟩

theorem Nested.of_append {index : Nat} {inner frames : List Frame}
    (h : Nested p index (inner ++ frames)) : Nested p index frames := by
  induction inner with
  | nil => exact h
  | cons f inner ih => exact ih h.2.2.2

theorem Sound.closeFinished (h : Sound p c) : Sound p (c.closeFinished p inside).1 := by
  cases haround : aroundDone? (·.isDone p inside) c.frames with
  | none =>
      rw [closeFinished_of_none haround]
      exact h
  | some outer =>
      obtain ⟨inner, f, hsplit, -⟩ := aroundDone?_eq_some haround
      have hnested := h.nested
      rw [hsplit] at hnested
      rw [closeFinished_of_some haround]
      exact hnested.of_append.around.sound_settle

/-! The search. -/

/-- Ticks are left of a wait only on that wait. -/
theorem Sound.eq_wait (h : Sound p c) {id : Nat} {node : Node α} (hid : c.current? p = some id)
    (hnode : p.node? id = some node) {left : Nat} (hwait : c.waitLeft = some left) :
    ∃ ticks, node = .action (.wait ticks) ∧ 0 < left ∧ left < ticks.toNat := by
  obtain ⟨other, ticks, hother, hothernode, hleft⟩ := h.wait left hwait
  obtain rfl := Option.some.inj (hid.symm.trans hother)
  exact ⟨ticks, Option.some.inj (hnode.symm.trans hothernode), hleft⟩

theorem Sound.waitLeft_eq_none (h : Sound p c) {id : Nat} {node : Node α}
    (hid : c.current? p = some id) (hnode : p.node? id = some node)
    (hwait : ∀ ticks, node ≠ .action (.wait ticks)) : c.waitLeft = none := by
  cases hleft : c.waitLeft with
  | none => rfl
  | some left =>
      obtain ⟨ticks, heq, -⟩ := h.eq_wait hid hnode hleft
      exact absurd heq (hwait ticks)

/-- A loop is entered at its place in the loop around it, which has a pass due. -/
theorem Nested.entered (h : Nested p c.index c.frames) (hhop : c.hop p inside = .entered d) :
    Nested p d.index d.frames := by
  obtain ⟨hdone, id, loop, kids, hid, hnode, rfl⟩ := entered_of_hop hhop
  refine ⟨Frame.fits_enter hnode, ?_, fun g hg => ⟨?_, ?_⟩, h⟩
  · rw [← current?_eq, hid, Frame.enter]
  · cases hframes : c.frames with
    | nil => simp [hframes] at hg
    | cons f outer =>
        simp only [hframes, List.head?_cons, Option.mem_some_iff] at hg
        rw [hframes, topDone, hg] at hdone
        exact Frame.isOpen_of_not_isDone hdone
  · intro hran
    exact absurd hran (by simp [Frame.enter])

theorem Sound.entered (h : Sound p c) (hhop : c.hop p inside = .entered d) : Sound p d := by
  have hnested := h.nested.entered hhop
  obtain ⟨-, id, loop, kids, hid, hnode, rfl⟩ := entered_of_hop hhop
  exact sound_of_nested h.index_le hnested (h.waitLeft_eq_none hid hnode (by simp))

theorem Sound.closed (h : Sound p c) (hhop : c.hop p inside = .closed d) : Sound p d := by
  obtain ⟨f, outer, hframes, -, rfl⟩ := closed_of_hop hhop
  have hnested := h.nested
  rw [hframes] at hnested
  exact hnested.around.sound_advance

theorem Sound.leads {n : Nat} (h : Sound p c) (hleads : Leads p inside n c d) : Sound p d := by
  induction hleads with
  | refl => exact h
  | entered hhop _ ih => exact ih (h.entered hhop)
  | closed hhop _ ih => exact ih (h.closed hhop)

theorem Sound.seek (h : Sound p c) (limit : Nat) : Sound p (seek p inside limit c).cursor := by
  rcases seek_cases p inside limit c with ⟨n, -, hends⟩ | ⟨hleads, -⟩
  · exact h.leads hends.leads
  · exact h.leads hleads

/-! The action. -/

/-- The frames of a cursor that is about to run an action. -/
def ranFrames (frames : List Frame) : List Frame := frames.map fun f => { f with ran := true }

@[simp] theorem level_ranFrames (p : Program α) (frames : List Frame) :
    level p (ranFrames frames) = level p frames := by
  cases frames <;> rfl

@[simp] theorem spot_ranFrames (index : Nat) (frames : List Frame) :
    spot index (ranFrames frames) = spot index frames := by
  cases frames <;> rfl

theorem Nested.ranFrames {index : Nat} {frames : List Frame} (h : Nested p index frames) :
    Nested p index (ranFrames frames) := by
  induction frames with
  | nil => trivial
  | cons f outer ih =>
      obtain ⟨hf, hplace, houter, hnested⟩ := h
      refine ⟨hf, ?_, ?_, ih hnested⟩
      · rwa [show outer.map _ = Cursor.ranFrames outer from rfl, level_ranFrames, spot_ranFrames]
      · intro g hg
        cases outer with
        | nil => simp at hg
        | cons first outer =>
            simp only [List.map_cons, List.head?_cons, Option.mem_some_iff] at hg
            subst hg
            exact ⟨(houter first rfl).1, fun _ => rfl⟩

@[simp] theorem current?_markRan (p : Program α) (c : Cursor) :
    c.markRan.current? p = c.current? p := by
  rw [current?_eq, current?_eq, markRan, show c.frames.map _ = ranFrames c.frames from rfl,
    level_ranFrames, spot_ranFrames]

theorem Sound.markRan (h : Sound p c) : Sound p c.markRan :=
  ⟨h.index_le, h.nested.ranFrames, fun left hleft => by
    rw [current?_markRan]
    exact h.wait left hleft⟩

theorem topDone_markRan (c : Cursor) :
    topDone p inside c.markRan.frames = topDone p inside c.frames := by
  cases hframes : c.frames with
  | nil => simp [Cursor.markRan, hframes, topDone]
  | cons f outer => simp [Cursor.markRan, hframes, topDone, Frame.isDone]

/-- Where the innermost loop is not finished, a cursor that stands on a node can be moved
past it. -/
theorem Nested.around_of_current? (h : Nested p c.index c.frames) {id : Nat}
    (hid : c.current? p = some id) (hdone : topDone p inside c.frames = false) :
    Around p c.index c.frames := by
  cases hframes : c.frames with
  | nil =>
      rw [current?_eq, hframes, level, spot] at hid
      exact ⟨(List.getElem?_eq_some_iff.mp hid).1, trivial, by simp⟩
  | cons f outer =>
      rw [hframes] at h hdone
      refine ⟨h.index_lt, h, ?_⟩
      intro g hg
      obtain rfl := Option.some.inj hg
      exact Frame.isOpen_of_not_isDone hdone

theorem Sound.around (h : Sound p c) {id : Nat} (hid : c.current? p = some id)
    (hdone : topDone p inside c.frames = false) : Around p c.index c.frames :=
  h.nested.around_of_current? hid hdone

section Execute

variable [Scalar α] {b b' : Body α} {words words' : WordStream}

/-- One more tick of a wait: what becomes of the body, and what is left of the wait. -/
theorem waitTick_eq_ok {ticks : Nat} (h : c.waitTick p ticks b = .ok (d, b')) :
    (if c.waitLeft.getD ticks = 0 then b' = b else b.moveStep = .ok b') ∧
      (d = ({ c with waitLeft := none } : Cursor).advance p ∧ c.waitLeft.getD ticks ≤ 1 ∨
        ∃ left, c.waitLeft.getD ticks = left + 1 ∧ 0 < left ∧
          d = { c with waitLeft := some left }) := by
  unfold waitTick at h
  split at h
  · next hzero =>
    simp only [Except.ok.injEq, Prod.mk.injEq] at h
    rw [if_pos hzero]
    exact ⟨h.2.symm, .inl ⟨h.1.symm, by omega⟩⟩
  · next left hleft =>
    obtain ⟨moved, hmoved, h⟩ := bind_eq_ok_iff.mp h
    rw [if_neg (by omega)]
    split at h
    · next hlast =>
      simp only [pure, Except.pure, Except.ok.injEq, Prod.mk.injEq] at h
      exact ⟨by rw [hmoved, h.2], .inl ⟨h.1.symm, by omega⟩⟩
    · next hmore =>
      simp only [pure, Except.pure, Except.ok.injEq, Prod.mk.injEq] at h
      exact ⟨by rw [hmoved, h.2], .inr ⟨left, hleft, by omega, h.1.symm⟩⟩

variable [Circular α] {id : AgentId} {view : Surroundings α}

theorem execute_wait (ticks : UInt32) :
    c.execute p id view b words (.wait ticks) =
      (c.waitTick p ticks.toNat b).map fun (c, b) => (c, b, words) := by
  simp only [execute]
  cases c.waitTick p ticks.toNat b <;> rfl

theorem execute_of_ne_wait {a : Action α} (ha : ∀ ticks, a ≠ .wait ticks) :
    c.execute p id view b words a =
      (b.perform id view words a).map fun (b, words) => (c.advance p, b, words) := by
  cases a
  case wait ticks => exact absurd rfl (ha ticks)
  all_goals
    simp only [execute]
    cases b.perform id view words _ <;> rfl

/-- What is done where an action succeeds: a wait takes one of its ticks, and any other action is
performed on the body before the cursor goes on. -/
theorem execute_cases {a : Action α} (h : c.execute p id view b words a = .ok (d, b', words')) :
    (∃ ticks, a = .wait ticks ∧ c.waitTick p ticks.toNat b = .ok (d, b') ∧ words' = words) ∨
      (∀ ticks, a ≠ .wait ticks) ∧ b.perform id view words a = .ok (b', words') ∧
        d = c.advance p := by
  by_cases ha : ∃ ticks, a = .wait ticks
  · obtain ⟨ticks, rfl⟩ := ha
    rw [execute_wait] at h
    cases htick : c.waitTick p ticks.toNat b with
    | error fault => simp [htick, Except.map] at h
    | ok result =>
        simp only [htick, Except.map, Except.ok.injEq, Prod.mk.injEq] at h
        obtain ⟨rfl, rfl, rfl⟩ := h
        exact .inl ⟨ticks, rfl, htick, rfl⟩
  · have ha : ∀ ticks, a ≠ .wait ticks := fun ticks heq => ha ⟨ticks, heq⟩
    rw [execute_of_ne_wait ha] at h
    cases hperform : b.perform id view words a with
    | error fault => simp [hperform, Except.map] at h
    | ok result =>
        simp only [hperform, Except.map, Except.ok.injEq, Prod.mk.injEq] at h
        obtain ⟨rfl, rfl, rfl⟩ := h
        exact .inr ⟨ha, rfl, rfl⟩

/-- An action that succeeds lets the cursor go on, unless it is a wait with ticks left. -/
theorem execute_eq_ok {node : Nat} {a : Action α} (hc : Sound p c)
    (hid : c.current? p = some node) (hnode : p.node? node = some (.action a))
    (h : c.execute p id view b words a = .ok (d, b', words')) :
    d = (⟨c.index, c.frames, none⟩ : Cursor).advance p ∧
        (∀ ticks, a = .wait ticks → c.waitLeft.getD ticks.toNat ≤ 1) ∨
      ∃ ticks left, a = .wait ticks ∧ c.waitLeft.getD ticks.toNat = left + 1 ∧ 0 < left ∧
        d = { c with waitLeft := some left } := by
  rcases execute_cases h with ⟨ticks, rfl, htick, -⟩ | ⟨ha, -, rfl⟩
  · rcases (waitTick_eq_ok htick).2 with ⟨hd, hlast⟩ | ⟨left, hleft, hpos, hd⟩
    · refine .inl ⟨hd, fun other hother => ?_⟩
      obtain rfl := Action.wait.inj hother
      exact hlast
    · exact .inr ⟨ticks, left, rfl, hleft, hpos, hd⟩
  · have hwait := hc.waitLeft_eq_none hid hnode (by simpa using ha)
    refine .inl ⟨?_, fun ticks hticks => absurd hticks (ha ticks)⟩
    rw [← hwait]

theorem Sound.execute {node : Nat} {a : Action α} (hc : Sound p c)
    (hdone : topDone p inside c.frames = false) (hid : c.current? p = some node)
    (hnode : p.node? node = some (.action a))
    (h : c.execute p id view b words a = .ok (d, b', words')) : Sound p d := by
  rcases execute_eq_ok hc hid hnode h with ⟨rfl, -⟩ | ⟨ticks, left, rfl, hleft, hpos, rfl⟩
  · exact (hc.around hid hdone).sound_advance
  · refine ⟨hc.index_le, hc.nested, ?_⟩
    intro other hother
    obtain rfl := Option.some.inj hother
    refine ⟨node, ticks, hid, hnode, hpos, ?_⟩
    cases hwait : c.waitLeft with
    | none =>
        rw [hwait, Option.getD_none] at hleft
        omega
    | some before =>
        obtain ⟨other, heq, -, hlt⟩ := hc.eq_wait hid hnode hwait
        obtain rfl := Action.wait.inj (Node.action.inj heq)
        rw [hwait, Option.getD_some] at hleft
        omega

end Execute

/-! The step as a whole. -/

/-- What the search of a step finds. -/
def found (p : Program α) (inside : String → Bool) (c : Cursor) : Found α :=
  seek p inside (hopLimit p) (c.closeFinished p inside).1

/-- The number of loops that a step closes. -/
def closedIn (p : Program α) (inside : String → Bool) (c : Cursor) : Nat :=
  (c.closeFinished p inside).2 + (c.found p inside).closed

theorem found_cases (p : Program α) (inside : String → Bool) (c : Cursor) :
    (∃ n, EndsIn p inside n (c.closeFinished p inside).1 (c.found p inside)) ∨
      Leads p inside (hopLimit p) (c.closeFinished p inside).1 (c.found p inside).cursor ∧
        (c.found p inside).action? = none := by
  rcases seek_cases p inside (hopLimit p) (c.closeFinished p inside).1 with ⟨n, -, hends⟩ | hlimit
  · exact .inl ⟨n, hends⟩
  · exact .inr hlimit

theorem leads_found (p : Program α) (inside : String → Bool) (c : Cursor) :
    ∃ n, Leads p inside n (c.closeFinished p inside).1 (c.found p inside).cursor := by
  rcases found_cases p inside c with ⟨n, hends⟩ | ⟨hleads, -⟩
  · exact ⟨n, hends.leads⟩
  · exact ⟨_, hleads⟩

/-- A search that has found an action was not cut short. -/
theorem endsIn_found {node : Nat} {a : Action α}
    (h : (c.found p inside).action? = some (node, a)) :
    ∃ n, EndsIn p inside n (c.closeFinished p inside).1 (c.found p inside) := by
  rcases found_cases p inside c with hends | ⟨-, hnone⟩
  · exact hends
  · exact absurd (hnone.symm.trans h) (by simp)

theorem hop_found {node : Nat} {a : Action α} (h : (c.found p inside).action? = some (node, a)) :
    (c.found p inside).cursor.hop p inside = .reached node a := by
  obtain ⟨n, hends⟩ := endsIn_found h
  have hhop := hends.hop_eq
  rwa [h] at hhop

theorem Sound.found (h : Sound p c) : Sound p (c.found p inside).cursor :=
  h.closeFinished.seek _

section Step

variable [Scalar α] [Circular α] {id : AgentId} {view : Surroundings α} {b b' : Body α}
  {words words' : WordStream}

/-- What a step can come to: it finds nothing to execute, or the action that it finds
fails, or the action is executed. -/
inductive Outcome (p : Program α) (id : AgentId) (view : Surroundings α) (c : Cursor) (b : Body α)
    (words : WordStream) : Cursor × Except (Fault α) (Turn α) → Prop where
  | idle (h : (c.found p (view.inRegion b.position)).action? = none) :
      Outcome p id view c b words ((c.found p (view.inRegion b.position)).cursor,
        .ok ⟨b, words, none, (c.closedIn p (view.inRegion b.position)).toUInt32,
          (c.found p (view.inRegion b.position)).cursor.isExhausted p⟩)
  | failed {node : Nat} {a : Action α} {fault : Fault α}
      (h : (c.found p (view.inRegion b.position)).action? = some (node, a))
      (hexecute : (c.found p (view.inRegion b.position)).cursor.markRan.execute p id view b words a
        = .error fault) :
      Outcome p id view c b words
        ((c.found p (view.inRegion b.position)).cursor.markRan, .error fault)
  | executed {node : Nat} {a : Action α} {d : Cursor} {b' : Body α} {words' : WordStream}
      (h : (c.found p (view.inRegion b.position)).action? = some (node, a))
      (hexecute : (c.found p (view.inRegion b.position)).cursor.markRan.execute p id view b words a
        = .ok (d, b', words')) :
      Outcome p id view c b words (d, .ok ⟨b', words', some (node, a),
        (c.closedIn p (view.inRegion b.position)).toUInt32, d.isExhausted p⟩)

theorem step_of_action?_eq_none (h : (c.found p (view.inRegion b.position)).action? = none) :
    c.step p id view b words = ((c.found p (view.inRegion b.position)).cursor,
      .ok ⟨b, words, none, (c.closedIn p (view.inRegion b.position)).toUInt32,
        (c.found p (view.inRegion b.position)).cursor.isExhausted p⟩) := by
  simp only [found] at h
  simp [step, found, closedIn, h]

theorem step_of_execute_eq_error {node : Nat} {a : Action α} {fault : Fault α}
    (h : (c.found p (view.inRegion b.position)).action? = some (node, a))
    (hexecute : (c.found p (view.inRegion b.position)).cursor.markRan.execute p id view b words a =
      .error fault) :
    c.step p id view b words =
      ((c.found p (view.inRegion b.position)).cursor.markRan, .error fault) := by
  simp only [found] at h hexecute
  simp [step, found, h, hexecute]

theorem step_of_execute_eq_ok {node : Nat} {a : Action α}
    (h : (c.found p (view.inRegion b.position)).action? = some (node, a))
    (hexecute : (c.found p (view.inRegion b.position)).cursor.markRan.execute p id view b words a =
      .ok (d, b', words')) :
    c.step p id view b words = (d, .ok ⟨b', words', some (node, a),
      (c.closedIn p (view.inRegion b.position)).toUInt32, d.isExhausted p⟩) := by
  simp only [found] at h hexecute
  simp [step, closedIn, found, h, hexecute]

theorem outcome_step (p : Program α) (id : AgentId) (view : Surroundings α) (c : Cursor)
    (b : Body α) (words : WordStream) :
    Outcome p id view c b words (c.step p id view b words) := by
  cases haction : (c.found p (view.inRegion b.position)).action? with
  | none =>
      rw [step_of_action?_eq_none haction]
      exact .idle haction
  | some result =>
      obtain ⟨node, a⟩ := result
      cases hexecute :
          (c.found p (view.inRegion b.position)).cursor.markRan.execute p id view b words a with
      | error fault =>
          rw [step_of_execute_eq_error haction hexecute]
          exact .failed haction hexecute
      | ok result =>
          obtain ⟨d, b', words'⟩ := result
          rw [step_of_execute_eq_ok haction hexecute]
          exact .executed haction hexecute

/-- A step keeps a cursor sound, whether it succeeds or fails. -/
theorem Sound.step (h : Sound p c) (id : AgentId) (view : Surroundings α) (b : Body α)
    (words : WordStream) : Sound p (c.step p id view b words).1 := by
  have houtcome := outcome_step p id view c b words
  generalize c.step p id view b words = result at houtcome
  cases houtcome with
  | idle => exact h.found
  | failed => exact h.found.markRan
  | executed haction hexecute =>
      obtain ⟨hdone, hid, hnode⟩ := reached_of_hop (hop_found haction)
      exact h.found.markRan.execute (by rwa [topDone_markRan]) (by rwa [current?_markRan])
        hnode hexecute

/-- The cursors that a program can come to, by steps that succeed or fail, each with a
body, surroundings and random words of its own. To reset a cursor is to put it at the
start again. -/
inductive Reachable (p : Program α) : Cursor → Prop where
  | start : Reachable p start
  | step {c : Cursor} (h : Reachable p c) (id : AgentId) (view : Surroundings α) (b : Body α)
      (words : WordStream) : Reachable p (c.step p id view b words).1

theorem sound_of_reachable (h : Reachable p c) : Sound p c := by
  induction h with
  | start => exact sound_start p
  | step _ id view b words ih => exact ih.step id view b words

end Step

end Cursor

end Flock
