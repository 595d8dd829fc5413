import Flock.Proofs.Cursor.Lookup

/-!
# Well-formed cursors

`Cursor.WellFormed` says of a cursor, item by item and in terms of the program alone,
what its place, its frames and the rest of a wait can be. Every cursor that a program
can come to is well formed, and its next step looks up no node that is not there
(`Cursor.wellFormed_of_reachable`).
-/

namespace Flock

namespace Cursor

variable {α : Type} {p : Program α} {c : Cursor} {index : Nat} {frames : List Frame}

/-- What the place, the frames and the rest of a wait can be. Frames are listed with
the innermost first, so the frame around the one at `i` is the one at `i + 1`. -/
structure WellFormed (p : Program α) (c : Cursor) : Prop where
  index_le : c.index ≤ p.root.length
  /-- The outermost frame stands in the loop at the place in the top-level sequence. -/
  outermost : ∀ f ∈ c.frames.getLast?, p.root[c.index]? = some f.node
  /-- Any other stands in the child that the frame around it is at. -/
  inner : ∀ i f g, c.frames[i]? = some f → c.frames[i + 1]? = some g →
    (p.children g.node)[g.index]? = some f.node
  /-- A frame is at a child of its loop, or at the start of an empty one. -/
  atChild : ∀ f ∈ c.frames, ∃ loop kids, p.node? f.node = some (.block loop kids) ∧
    (f.index < kids.length ∨ kids = [] ∧ f.index = 0)
  depth_le : c.frames.length ≤ p.depth
  passes_le : ∀ f ∈ c.frames, ∀ count kids,
    p.node? f.node = some (.block (.times count) kids) → f.passes ≤ count.toNat
  /-- A loop inside which the cursor is in another loop has a pass due. -/
  passes_lt : ∀ f ∈ c.frames.tail, ∀ count kids,
    p.node? f.node = some (.block (.times count) kids) → f.passes < count.toNat
  /-- A pass has run an action as soon as a pass inside it has. -/
  ran : c.frames.Pairwise fun f g => f.ran → g.ran
  /-- Ticks are left of a wait only where the cursor stands on it, and neither none nor
  all of them. -/
  wait : ∀ left, c.waitLeft = some left → ∃ id ticks,
    c.current? p = some id ∧ p.node? id = some (.action (.wait ticks)) ∧
      0 < left ∧ left < ticks.toNat

theorem Nested.getLast (h : Nested p index frames) :
    ∀ f ∈ frames.getLast?, p.root[index]? = some f.node := by
  induction frames with
  | nil => simp
  | cons f outer ih =>
      obtain ⟨-, hplace, -, hnested⟩ := h
      cases outer with
      | nil => simpa [level, spot] using hplace
      | cons g outer => simpa using ih hnested

theorem Nested.inner (h : Nested p index frames) :
    ∀ i f g, frames[i]? = some f → frames[i + 1]? = some g →
      (p.children g.node)[g.index]? = some f.node := by
  induction frames with
  | nil => simp
  | cons first outer ih =>
      obtain ⟨-, hplace, -, hnested⟩ := h
      intro i f g hf hg
      cases i with
      | zero =>
          obtain rfl : first = f := by simpa using hf
          cases outer with
          | nil => simp at hg
          | cons second outer =>
              obtain rfl : second = g := by simpa using hg
              exact hplace
      | succ i => exact ih hnested i f g (by simpa using hf) (by simpa using hg)

theorem Nested.fits (h : Nested p index frames) : ∀ f ∈ frames, f.Fits p := by
  induction frames with
  | nil => simp
  | cons f outer ih => exact List.forall_mem_cons.mpr ⟨h.1, ih h.2.2.2⟩

theorem Nested.isOpen_of_mem_tail (h : Nested p index frames) : ∀ f ∈ frames.tail, f.IsOpen p := by
  induction frames with
  | nil => simp
  | cons first outer ih =>
      obtain ⟨-, -, houter, hnested⟩ := h
      cases outer with
      | nil => simp
      | cons second outer =>
          exact List.forall_mem_cons.mpr ⟨(houter second rfl).1, ih hnested⟩

theorem Nested.pairwise_ran (h : Nested p index frames) :
    frames.Pairwise fun f g => f.ran → g.ran := by
  induction frames with
  | nil => exact .nil
  | cons first outer ih =>
      obtain ⟨-, -, houter, hnested⟩ := h
      refine .cons ?_ (ih hnested)
      intro g hg hran
      cases outer with
      | nil => simp at hg
      | cons second outer =>
          have hsecond : second.ran := (houter second rfl).2 hran
          rcases List.mem_cons.mp hg with rfl | hg
          · exact hsecond
          · exact (List.pairwise_cons.mp (ih hnested)).1 g hg hsecond

theorem Sound.wellFormed (hp : p.Sound) (h : Sound p c) : WellFormed p c where
  index_le := h.index_le
  outermost := h.nested.getLast
  inner := h.nested.inner
  atChild f hf := by
    obtain ⟨loop, kids, hnode, hindex, -⟩ := h.nested.fits f hf
    refine ⟨loop, kids, hnode, ?_⟩
    cases kids with
    | nil => exact .inr ⟨rfl, by simpa using hindex⟩
    | cons kid kids => exact .inl (hindex.elim id fun hzero => by simp [hzero])
  depth_le := by
    rw [hp.depth_eq]
    exact Nat.le_of_add_right_le (depth_level_le hp h.nested)
  passes_le f hf count kids hnode := by
    obtain ⟨loop, others, hother, -, hpasses⟩ := h.nested.fits f hf
    obtain ⟨rfl, -⟩ := Node.block.inj (Option.some.inj (hother.symm.trans hnode))
    exact hpasses count rfl
  passes_lt f hf count kids hnode := h.nested.isOpen_of_mem_tail f hf count kids hnode
  ran := h.nested.pairwise_ran
  wait := h.wait

variable [Scalar α] [Circular α]

/-- Every cursor that a program can come to is well formed. No number in the program is
without a node, and no step from such a cursor looks up a number without one. -/
theorem wellFormed_of_reachable {events : List (Event α)} (hp : Program.ofEvents events = .ok p)
    (hc : Reachable p c) :
    WellFormed p c ∧
      ((∀ id ∈ p.root, (p.node? id).isSome) ∧
        ∀ id, ∀ kid ∈ p.children id, (p.node? kid).isSome) ∧
      ∀ (id : AgentId) (view : Surroundings α) (b : Body α) (words : WordStream),
        c.step? p id view b words = some (c.step p id view b words) := by
  have hprogram := (Program.sound_of_ofEvents hp).1
  have hsound := sound_of_reachable hc
  refine ⟨hsound.wellFormed hprogram, ⟨?_, ?_⟩, fun id view b words =>
    hsound.step?_eq hprogram id view b words⟩
  · intro id hid
    obtain ⟨node, hnode⟩ := p.exists_node? (hprogram.root_lt id hid)
    simp [hnode]
  · intro id kid hkid
    cases hid : p.node? id with
    | none => simp [Program.children, hid] at hkid
    | some parent =>
        cases parent with
        | action a => simp [Program.children, hid, Node.children] at hkid
        | block loop kids =>
            -- a loop comes after its children, so their numbers are in the program as its is
            have hlt : kid < id := by
              refine hprogram.descends id loop kids hid kid ?_
              simpa [Program.children, hid, Node.children] using hkid
            obtain ⟨node, hnode⟩ :=
              p.exists_node? (Nat.lt_trans hlt (Program.lt_size_of_node? hid))
            simp [hnode]

/-- After two ticks of a program of two nested loops, the wait in the inner one has a tick
left. -/
theorem wellFormed_of_reachable_wait_in_loops :
    ∃ p : Program Whole,
      Program.ofEvents [.startTimes 3, .signal "x", .startUntil "home", .wait 2, .finish, .finish]
        = .ok p ∧
      let step (c : Cursor) :=
        (c.step p ⟨1, 0⟩ (.alone []) { Body.atPoint ⟨0, 0⟩ with heading := some .east }
          (.ofSeed 0)).1
      step (step start) = ⟨0, [⟨2, 0, 0, true⟩, ⟨3, 1, 0, true⟩], some 1⟩ ∧
        WellFormed p (step (step start)) := by
  have hbuilt : Program.ofEvents
      [.startTimes 3, .signal "x", .startUntil "home", .wait 2, .finish, .finish] =
        .ok (⟨#[.action (.signal "x"), .action (.wait 2), .block (.untilIn "home") [1],
          .block (.times 3) [0, 2]], [3]⟩ : Program Whole) := by decide
  refine ⟨_, hbuilt, by decide, ?_⟩
  exact (wellFormed_of_reachable hbuilt ((Reachable.start.step _ _ _ _).step _ _ _ _)).1

end Cursor

end Flock
