import Flock.Proofs.Cursor.Reachable
import Mathlib.Logic.Relation

/-!
# What a step does to the frames

However a step goes, it changes the frames of a cursor in a few ways only, one after the
other (`Cursor.edits_step`): it enters the loop that the cursor stands at, moves past a
loop that has come to its end and abandons all inside it, records that an action is run,
or moves past that action. So whatever each of these edits keeps holds of every cursor
that a program can come to.
-/

namespace Flock

theorem Frame.passesAfter_le_greatest {α : Type} {p : Program α} {f : Frame}
    (h : f.passes ≤ greatestPassCount) : f.passesAfter p ≤ greatestPassCount := by
  unfold passesAfter
  split
  · next count _ _ =>
    have := le_greatestPassCount count
    split <;> omega
  · exact Nat.min_le_right _ _

namespace Cursor

variable {α : Type} {p : Program α} {inside : String → Bool} {c d : Cursor} {index : Nat}
  {frames : List Frame}

/-- One change to the frames of a cursor. -/
inductive Edit (p : Program α) (inside : String → Bool) : Cursor → Cursor → Prop where
  | entered {c d : Cursor} (h : c.hop p inside = .entered d) : Edit p inside c d
  | left {c : Cursor} {inner outer : List Frame} {f : Frame} (h : c.frames = inner ++ f :: outer)
      (hdone : f.isDone p inside) : Edit p inside c ((⟨c.index, outer, none⟩ : Cursor).advance p)
  | marked (c : Cursor) : Edit p inside c c.markRan
  | passed {c : Cursor} {id : Nat} (hdone : topDone p inside c.frames = false)
      (hid : c.current? p = some id) :
      Edit p inside c ((⟨c.index, c.frames, none⟩ : Cursor).advance p)
  | waited (c : Cursor) (left : Nat) : Edit p inside c { c with waitLeft := some left }

/-- A number of changes to the frames of a cursor, one after the other. -/
abbrev Edits (p : Program α) (inside : String → Bool) : Cursor → Cursor → Prop :=
  Relation.ReflTransGen (Edit p inside)

/-! A step is made of edits. -/

theorem Leads.edits {n : Nat} (h : Leads p inside n c d) : Edits p inside c d := by
  induction h with
  | refl => exact .refl
  | entered hhop _ ih => exact .head (.entered hhop) ih
  | closed hhop _ ih =>
      obtain ⟨f, outer, hframes, hdone, rfl⟩ := closed_of_hop hhop
      exact .head (.left (hframes.trans (List.nil_append _).symm) hdone) ih

/-- To move past a loop and to close those around it is to leave them one by one. -/
theorem edits_settle (p : Program α) (inside : String → Bool) (index : Nat)
    (frames : List Frame) :
    Edits p inside ((⟨index, frames, none⟩ : Cursor).advance p)
      ⟨(settle p inside index frames).1, (settle p inside index frames).2.1, none⟩ := by
  obtain ⟨n, hleads⟩ := leads_settle p inside index frames
  exact hleads.edits

theorem edits_closeFinished (p : Program α) (inside : String → Bool) (c : Cursor) :
    Edits p inside c (c.closeFinished p inside).1 := by
  cases haround : aroundDone? (·.isDone p inside) c.frames with
  | none =>
      rw [closeFinished_of_none haround]
  | some outer =>
      obtain ⟨inner, f, hsplit, hdone, -⟩ := aroundDone?_eq_some haround
      rw [closeFinished_of_some haround]
      exact .head (.left hsplit hdone) (edits_settle p inside c.index outer)

theorem edits_found (p : Program α) (inside : String → Bool) (c : Cursor) :
    Edits p inside c (c.found p inside).cursor := by
  obtain ⟨n, hleads⟩ := leads_found p inside c
  exact (edits_closeFinished p inside c).trans hleads.edits

section Step

variable [Scalar α] [Circular α]

/-- What a step does to a cursor, whether it succeeds or fails. -/
theorem edits_step (hc : Sound p c) (id : AgentId) (view : Surroundings α) (b : Body α)
    (words : WordStream) :
    Edits p (view.inRegion b.position) c (c.step p id view b words).1 := by
  have hfound := edits_found p (view.inRegion b.position) c
  have houtcome := outcome_step p id view c b words
  generalize c.step p id view b words = result at houtcome
  cases houtcome with
  | idle => exact hfound
  | failed => exact hfound.tail (.marked _)
  | executed haction hexecute =>
      refine (hfound.tail (.marked _)).tail ?_
      obtain ⟨hdone, hid, hnode⟩ := reached_of_hop (hop_found haction)
      rw [← topDone_markRan] at hdone
      rw [← current?_markRan] at hid
      rcases execute_eq_ok hc.found.markRan hid hnode hexecute with
        ⟨rfl, -⟩ | ⟨_, left, -, -, -, rfl⟩
      · exact .passed hdone hid
      · exact .waited _ left

end Step

/-! What edits keep. -/

theorem Around.nested_advance (h : Around p index frames) :
    Nested p ((⟨index, frames, none⟩ : Cursor).advance p).index
      ((⟨index, frames, none⟩ : Cursor).advance p).frames :=
  h.sound_advance.nested

theorem Edit.nested (h : Edit p inside c d) (hc : Nested p c.index c.frames) :
    Nested p d.index d.frames := by
  cases h with
  | entered hhop => exact hc.entered hhop
  | left hframes =>
      rw [hframes] at hc
      exact hc.of_append.around.nested_advance
  | marked => exact hc.ranFrames
  | passed hdone hid => exact (hc.around_of_current? hid hdone).nested_advance
  | waited => exact hc

theorem Edits.nested (h : Edits p inside c d) (hc : Nested p c.index c.frames) :
    Nested p d.index d.frames := by
  induction h with
  | refl => exact hc
  | tail _ hlast ih => exact hlast.nested ih

/-- A property of frames that holds of a fresh frame, and that neither advancing a frame nor
running an action ends. -/
structure Lasting (p : Program α) (holds : Frame → Prop) : Prop where
  enter : ∀ id, holds (.enter id)
  advance : ∀ f, holds f → holds (f.advance p)
  ran : ∀ f, holds f → holds { f with ran := true }

theorem Lasting.frames_advance {holds : Frame → Prop} (h : Lasting p holds)
    (hframes : ∀ f ∈ frames, holds f) :
    ∀ f ∈ ((⟨index, frames, none⟩ : Cursor).advance p).frames, holds f := by
  cases frames with
  | nil => exact hframes
  | cons f outer =>
      rw [List.forall_mem_cons] at hframes
      exact List.forall_mem_cons.mpr ⟨h.advance f hframes.1, hframes.2⟩

theorem Lasting.edit {holds : Frame → Prop} (h : Lasting p holds) (hedit : Edit p inside c d)
    (hc : ∀ f ∈ c.frames, holds f) : ∀ f ∈ d.frames, holds f := by
  cases hedit with
  | entered hhop =>
      obtain ⟨-, id, loop, kids, -, -, rfl⟩ := entered_of_hop hhop
      exact List.forall_mem_cons.mpr ⟨h.enter id, hc⟩
  | left hframes =>
      refine h.frames_advance fun f hf => hc f ?_
      rw [hframes]
      exact List.mem_append_right _ (List.mem_cons_of_mem _ hf)
  | marked =>
      intro f hf
      obtain ⟨g, hg, rfl⟩ := List.mem_map.mp hf
      exact h.ran g (hc g hg)
  | passed => exact h.frames_advance hc
  | waited => exact hc

theorem Lasting.edits {holds : Frame → Prop} (h : Lasting p holds) (hedits : Edits p inside c d)
    (hc : ∀ f ∈ c.frames, holds f) : ∀ f ∈ d.frames, holds f := by
  induction hedits with
  | refl => exact hc
  | tail _ hlast ih => exact h.edit hlast ih

/-- Such a property holds of all frames of every cursor that a program can come to. -/
theorem Lasting.of_reachable [Scalar α] [Circular α] {holds : Frame → Prop} (h : Lasting p holds)
    (hc : Reachable p c) : ∀ f ∈ c.frames, holds f := by
  induction hc with
  | start => simp [start]
  | step hc id view b words ih =>
      exact h.edits (edits_step (sound_of_reachable hc) id view b words) ih

theorem lasting_passes_le (p : Program α) : Lasting p (·.passes ≤ greatestPassCount) where
  enter _ := Nat.zero_le _
  advance f hf := by
    unfold Frame.advance
    split
    · exact hf
    · exact Frame.passesAfter_le_greatest hf
  ran _ hf := hf

end Cursor

end Flock
