import Flock.Proofs.Cursor.Unfinished

/-!
# Cursors that stand on an action

The search of a step leaves the cursor on an action, inside loops none of which has come to
its end (`Cursor.Stands`). The search of a further step, with the agent in the same regions,
has nothing left to do: it closes no loop and finds that action where it is
(`Cursor.Stands.found`). So a cursor that a step could not take past its action, because the
action failed or was to be executed once more, takes the action up again.
-/

namespace Flock

namespace Cursor

variable {α : Type} {p : Program α} {inside : String → Bool} {c d : Cursor} {node : Nat}
  {a : Action α}

theorem hopLimit_pos (p : Program α) : 0 < hopLimit p := by simp [hopLimit]

/-- A cursor stands on an action, and no loop around it has come to its end. -/
structure Stands (p : Program α) (inside : String → Bool) (c : Cursor) (node : Nat)
    (a : Action α) : Prop where
  unfinished : ∀ g ∈ c.frames, g.isDone p inside = false
  current : c.current? p = some node
  action : p.node? node = some (.action a)

namespace Stands

theorem hop (h : Stands p inside c node a) : c.hop p inside = .reached node a :=
  hop_of_action (topDone_eq_false h.unfinished) h.current h.action

theorem closeFinished (h : Stands p inside c node a) : c.closeFinished p inside = (c, 0) :=
  closeFinished_of_none (aroundDone?_eq_none_iff.mpr h.unfinished)

/-- The search of a step ends where it began. -/
theorem found (h : Stands p inside c node a) : c.found p inside = ⟨c, 0, some (node, a)⟩ := by
  rw [Cursor.found, h.closeFinished]
  exact seek_of_endsIn (.reached h.hop) (hopLimit_pos p)

theorem closedIn (h : Stands p inside c node a) : c.closedIn p inside = 0 := by
  simp [Cursor.closedIn, h.closeFinished, h.found]

theorem markRan (h : Stands p inside c node a) : Stands p inside c.markRan node a :=
  ⟨not_isDone_markRan h.unfinished, by rw [current?_markRan, h.current], h.action⟩

end Stands

/-- The search of a step that finds an action leaves the cursor standing on it. -/
theorem stands_found (h : (c.found p inside).action? = some (node, a)) :
    Stands p inside (c.found p inside).cursor node a :=
  let ⟨_, hcurrent, haction⟩ := reached_of_hop (hop_found h)
  ⟨not_isDone_found h, hcurrent, haction⟩

@[simp] theorem markRan_markRan (c : Cursor) : c.markRan.markRan = c.markRan := by
  simp [markRan, Function.comp_def]

section Step

variable [Scalar α] [Circular α] {id : AgentId} {view : Surroundings α} {b b' : Body α}
  {words words' : WordStream}

/-- A cursor that stands on the action that another one comes to, and at the place where that
one comes to it, does with its step what the other does: only the loops that the other one
closed on its way are not closed again. -/
theorem step_markRan_found
    (hdue : (c.found p (view.inRegion b.position)).action? = some (node, a))
    (h : (c.found p (view.inRegion b.position)).cursor.markRan.execute p id view b words a =
      .ok (d, b', words')) :
    (c.found p (view.inRegion b.position)).cursor.markRan.step p id view b words =
      (d, .ok ⟨b', words', ⟨some (node, a), 0, d.isExhausted p⟩⟩) := by
  have hstands := (stands_found hdue).markRan
  have hagain := congrArg Found.action? hstands.found
  have hstep := step_of_execute_eq_ok hagain (by rw [hstands.found, markRan_markRan, h])
  rwa [hstands.closedIn] at hstep

end Step

end Cursor

end Flock
