import Flock.Proofs.Cursor.WellFormed

/-!
# Actions run inside unfinished loops

The first phase of a step looks at every loop that the cursor is inside, the search that
follows only at the innermost. That is enough: a hop goes in where the innermost loop has
not come to its end, or out of that loop, and on the way out only the loop around it moves
on. So the loops around the innermost one stay unfinished during the search
(`Cursor.Underway`), and where it stands on an action no loop is finished at all
(`Cursor.unfinished_at_executed`).
-/

namespace Flock

namespace Frame

variable {α : Type} {p : Program α} {inside : String → Bool} {f : Frame}

/-- A loop with a number of passes has one due, and the agent stands in no region that
would end the loop. -/
def Unfinished (p : Program α) (inside : String → Bool) (f : Frame) : Prop :=
  (∀ count kids, p.node? f.node = some (.block (.times count) kids) →
    f.passes < count.toNat) ∧
  ∀ region kids, p.node? f.node = some (.block (.untilIn region) kids) →
    inside region = false

theorem unfinished_of_not_isDone (h : f.isDone p inside = false) : f.Unfinished p inside := by
  refine ⟨isOpen_of_not_isDone h, ?_⟩
  intro region kids hnode
  rwa [isDone_untilIn hnode] at h

end Frame

namespace Cursor

variable {α : Type} {p : Program α} {inside : String → Bool} {c d : Cursor}

/-- No loop around the innermost one has come to its end. -/
def Underway (p : Program α) (inside : String → Bool) (c : Cursor) : Prop :=
  ∀ g ∈ c.frames.tail, g.isDone p inside = false

/-- If the innermost loop has not come to its end either, no loop has. -/
theorem Underway.not_isDone (h : Underway p inside c) (hdone : topDone p inside c.frames = false) :
    ∀ g ∈ c.frames, g.isDone p inside = false := by
  unfold Underway at h
  cases hframes : c.frames with
  | nil => simp
  | cons f outer =>
      rw [hframes] at h hdone
      exact List.forall_mem_cons.mpr ⟨hdone, h⟩

theorem tail_frames_advance (p : Program α) (index : Nat) (frames : List Frame) :
    ((⟨index, frames, none⟩ : Cursor).advance p).frames.tail = frames.tail := by
  cases frames <;> rfl

theorem underway_closeFinished (c : Cursor) : Underway p inside (c.closeFinished p inside).1 :=
  fun g hg => not_isDone_closeFinished c g (List.mem_of_mem_tail hg)

/-- A loop is entered only where no loop is finished. -/
theorem Underway.entered (h : Underway p inside c) (hhop : c.hop p inside = .entered d) :
    Underway p inside d := by
  obtain ⟨hdone, id, loop, kids, -, -, rfl⟩ := entered_of_hop hhop
  exact h.not_isDone hdone

/-- The loop that moves on when the innermost is closed is the innermost one then. -/
theorem Underway.closed (h : Underway p inside c) (hhop : c.hop p inside = .closed d) :
    Underway p inside d := by
  obtain ⟨f, outer, hframes, -, rfl⟩ := closed_of_hop hhop
  intro g hg
  rw [tail_frames_advance] at hg
  exact h g (by rw [hframes]; exact List.mem_of_mem_tail hg)

theorem Underway.leads {n : Nat} (h : Underway p inside c) (hleads : Leads p inside n c d) :
    Underway p inside d := by
  induction hleads with
  | refl => exact h
  | entered hhop _ ih => exact ih (h.entered hhop)
  | closed hhop _ ih => exact ih (h.closed hhop)

/-- Where the search of a step stands on an action, no loop has come to its end. -/
theorem not_isDone_found {node : Nat} {a : Action α}
    (h : (c.found p inside).action? = some (node, a)) :
    ∀ g ∈ (c.found p inside).cursor.frames, g.isDone p inside = false := by
  obtain ⟨n, hends⟩ := endsIn_found h
  have hunderway := (underway_closeFinished c).leads hends.leads
  exact hunderway.not_isDone (reached_of_hop (hop_found h)).1

/-- To have run an action changes nothing about a loop being finished. -/
theorem not_isDone_markRan (h : ∀ g ∈ c.frames, g.isDone p inside = false) :
    ∀ g ∈ c.markRan.frames, g.isDone p inside = false := by
  intro g hg
  obtain ⟨f, hf, rfl⟩ := List.mem_map.mp hg
  exact h f hf

variable [Scalar α] [Circular α]

/-- The cursor that the search of a step ends on, with which the step executes an action,
stands at a place where none of the loops around it is finished: each with a number of passes
has one due, and the agent, where it stood when the step began, is in no region that would end
one of them. -/
theorem unfinished_at_executed {events : List (Event α)} (hp : Program.ofEvents events = .ok p)
    (hc : Reachable p c) {id : AgentId} {view : Surroundings α} {b : Body α}
    {words : WordStream} {turn : Turn α} {node : Nat} {a : Action α}
    (hstep : c.step p id view b words = (d, .ok turn))
    (hran : turn.report.executed = some (node, a)) :
    let here := (c.found p (view.inRegion b.position)).cursor.markRan
    here.execute p id view b words a = .ok (d, turn.body, turn.words) ∧
      here.current? p = some node ∧ p.node? node = some (.action a) ∧ WellFormed p here ∧
      ∀ f ∈ here.frames, f.Unfinished p (view.inRegion b.position) := by
  intro here
  have houtcome := outcome_step p id view c b words
  rw [hstep] at houtcome
  cases houtcome with
  | idle => exact absurd hran (by simp)
  | executed haction hexecute =>
      obtain ⟨rfl, rfl⟩ := Prod.mk.inj (Option.some.inj hran)
      obtain ⟨-, hid, hnode⟩ := reached_of_hop (hop_found haction)
      have hfound : Sound p (c.found p (view.inRegion b.position)).cursor :=
        (sound_of_reachable hc).found
      refine ⟨hexecute, by rwa [current?_markRan], hnode,
        hfound.markRan.wellFormed (Program.sound_of_ofEvents hp).1, ?_⟩
      intro f hf
      exact Frame.unfinished_of_not_isDone (not_isDone_markRan (not_isDone_found haction) f hf)

/-- The second step of a program of two nested loops executes its signal in the second and
last pass of the inner one, away from the region that would end the outer. -/
theorem unfinished_at_executed_last_pass :
    ∃ p : Program Whole,
      Program.ofEvents [.startUntil "home", .startTimes 2, .signal "x", .finish, .finish]
        = .ok p ∧
      let view := Surroundings.alone [(⟨"home", .circle ⟨5, 0⟩ 1⟩ : Region Whole)]
      let b := Body.atPoint (⟨0, 0⟩ : Point Whole)
      let c := (start.step p ⟨1, 0⟩ view b (.ofSeed 0)).1
      let d : Cursor := ⟨0, [⟨1, 0, 2, false⟩, ⟨2, 0, 0, true⟩], none⟩
      c.step p ⟨1, 0⟩ view b (.ofSeed 0) =
          (d, .ok ⟨b.signal "x", .ofSeed 0, ⟨some (0, .signal "x"), 0, false⟩⟩) ∧
        let here := (c.found p (view.inRegion b.position)).cursor.markRan
        here.execute p ⟨1, 0⟩ view b (.ofSeed 0) (.signal "x") =
            .ok (d, b.signal "x", .ofSeed 0) ∧
          here.current? p = some 0 ∧ p.node? 0 = some (.action (.signal "x")) ∧
          WellFormed p here ∧ ∀ f ∈ here.frames, f.Unfinished p (view.inRegion b.position) := by
  let p : Program Whole :=
    ⟨#[.action (.signal "x"), .block (.times 2) [0], .block (.untilIn "home") [1]], [2]⟩
  have hbuilt : Program.ofEvents
      [.startUntil "home", .startTimes 2, .signal "x", .finish, .finish] = .ok p := by decide
  refine ⟨p, hbuilt, ?_⟩
  intro view b c d
  have hstep : c.step p ⟨1, 0⟩ view b (.ofSeed 0) =
      (d, .ok ⟨b.signal "x", .ofSeed 0, ⟨some (0, .signal "x"), 0, false⟩⟩) := rfl
  exact ⟨hstep, unfinished_at_executed hbuilt (Reachable.start.step _ _ _ _) hstep rfl⟩

end Cursor

end Flock
