import Flock.Proofs.Agent.Headless
import Flock.Proofs.Cursor.Standing
import Flock.Proofs.Whole

/-!
# Steps taken again after a failure

A step that fails for want of a heading has closed loops, entered others and noted in all of
them that an action was run, and its cursor is kept as it is then. All of this is what the
step would have done to the cursor with a heading as well, before its wait moves the body: a
step taken again finds the wait where it is, with all its ticks, and does the rest
(`Cursor.retry_of_failed`).
-/

namespace Flock

namespace Cursor

variable {α : Type} [Scalar α] [Circular α] {p : Program α} {c d : Cursor} {id : AgentId}
  {view : Surroundings α} {b : Body α} {words : WordStream} {node : Nat}
  {fault : Fault α} {closed : UInt32} {exhausted : Bool}

/-- A step that fails, and not for want of a finite range, could have its samples. -/
theorem canSample_of_step_eq_error (h : (c.step p id view b words).2 = .error fault)
    (hbounded : fault ≠ .unboundedRange) : CanSample p (view.inRegion b.position) c := by
  intro node a hdue
  by_contra hunbounded
  have hfault := step_of_faultOf? hdue
    (faultOf?_eq_unboundedRange_iff.mpr (by simpa using hunbounded)) id words
  exact hbounded (Except.error.inj (h.symm.trans hfault))

omit [Circular α] in
theorem canSample_of_wait {inside : String → Bool} {ticks : UInt32}
    (h : (c.found p inside).action? = some (node, .wait ticks)) : CanSample p inside c := by
  intro node' a' h'
  obtain ⟨-, rfl⟩ := Prod.mk.inj (Option.some.inj (h.symm.trans h'))
  rfl

/-- What a step of a body with a heading comes to in place, where it executes a wait. -/
theorem run_step_of_execute_wait {ticks : UInt32} {b' : Body α}
    (hdue : (c.found p (view.inRegion b.position)).action? = some (node, .wait ticks))
    (h : c.step p id view b words =
      (d, .ok ⟨b', words, ⟨some (node, .wait ticks), closed, exhausted⟩⟩)) :
    (Stepping.step p id view).run ⟨c, b, words⟩ =
      .ok ⟨some (node, .wait ticks), closed, exhausted⟩ ⟨d, b', words⟩ := by
  rw [Stepping.run_step p id view c b words (canSample_of_wait hdue), h]
  rfl

/-- A step that has failed can be taken again: if the body is given a heading afterwards, the
next step leaves the same cursor, the same body and the same words, and executes the same
action, as one step of a body that had been given that heading before. -/
theorem retry_of_failed (hfails : (c.step p id view b words).2 = .error fault)
    (hbounded : fault ≠ .unboundedRange) (heading : Heading α) :
    ∃ (failed done : Midstep α) (first again : StepReport α) (node : Nat) (ticks : UInt32),
      (Stepping.step p id view).run ⟨c, b, words⟩ = .error fault failed ∧
      (Stepping.step p id view).run ⟨c, b.setHeading heading, words⟩ = .ok first done ∧
      (Stepping.step p id view).run { failed with body := failed.body.setHeading heading } =
        .ok again done ∧
      first.executed = some (node, .wait ticks) ∧ again.executed = some (node, .wait ticks) := by
  have hsample := canSample_of_step_eq_error hfails hbounded
  obtain ⟨rfl, hheading, node, ticks, hdue, hleft⟩ := (step_eq_error_iff hsample id words).mp hfails
  -- a heading leaves the body in the regions where it was, so the search is the same
  let turned := b.setHeading heading
  have hdue' : (c.found p (view.inRegion turned.position)).action? =
      some (node, .wait ticks) := hdue
  let waiting := (c.found p (view.inRegion turned.position)).cursor.markRan
  have hstuck : waiting.faultOf? b (.wait ticks) = some .noHeading :=
    (faultOf?_eq_some_iff rfl).mpr ⟨rfl, hheading, ticks, rfl, hleft⟩
  have hfailed := step_of_execute_eq_error hdue (execute_of_faultOf? hstuck p id view words)
  obtain ⟨d, b', hwait, -⟩ :=
    execute_wait_of_heading (b := turned) rfl p waiting id view words ticks
  have hfirst := step_of_execute_eq_ok hdue' hwait
  have hagain := step_markRan_found hdue' hwait
  have hstands : (waiting.found p (view.inRegion turned.position)).action? =
      some (node, .wait ticks) := by rw [(stands_found hdue').markRan.found]
  refine ⟨⟨waiting, b, words⟩, ⟨d, b', words⟩, _, _, node, ticks, ?_,
    run_step_of_execute_wait hdue' hfirst, run_step_of_execute_wait hstands hagain, rfl, rfl⟩
  have hrun := run_step_of_error hsample hfails
  rwa [hfailed] at hrun

/-- An agent that stands at home leaves a loop that is to end there, enters the next one and
fails at the wait in it. Faced east and stepped again, it has waited the first of three
ticks, as it would have if it had faced east before. -/
theorem retry_of_failed_between_loops :
    ∃ p : Program Whole,
      Program.ofEvents [.startUntil "home", .signal "x", .finish, .startTimes 2, .wait 3, .finish]
        = .ok p ∧
      let view := Surroundings.alone [(⟨"home", .circle ⟨0, 0⟩ 1⟩ : Region Whole)]
      let b := Body.atPoint (⟨0, 0⟩ : Point Whole)
      let words := WordStream.ofSeed 0
      (start.step p ⟨1, 0⟩ view b words).2 = .error .noHeading ∧
      (Fault.noHeading : Fault Whole) ≠ .unboundedRange ∧
      ∃ (failed done : Midstep Whole) (first again : StepReport Whole) (node : Nat)
        (ticks : UInt32),
        (Stepping.step p ⟨1, 0⟩ view).run ⟨start, b, words⟩ = .error .noHeading failed ∧
        (Stepping.step p ⟨1, 0⟩ view).run ⟨start, b.setHeading .east, words⟩ = .ok first done ∧
        (Stepping.step p ⟨1, 0⟩ view).run { failed with body := failed.body.setHeading .east } =
          .ok again done ∧
        first.executed = some (node, .wait ticks) ∧
          again.executed = some (node, .wait ticks) := by
  let p : Program Whole :=
    ⟨#[.action (.signal "x"), .block (.untilIn "home") [0], .action (.wait 3),
      .block (.times 2) [2]], [1, 3]⟩
  have hbuilt : Program.ofEvents
      [.startUntil "home", .signal "x", .finish, .startTimes 2, .wait 3, .finish] = .ok p := by
    decide
  refine ⟨p, hbuilt, ?_⟩
  intro view b words
  have hfails : (start.step p ⟨1, 0⟩ view b words).2 = .error .noHeading := rfl
  have hbounded : (Fault.noHeading : Fault Whole) ≠ .unboundedRange := by decide
  exact ⟨hfails, hbounded, retry_of_failed hfails hbounded .east⟩

end Cursor

end Flock
