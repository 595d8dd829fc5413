import Flock.Proofs.Cursor.Edit
import Flock.Proofs.Whole
import Mathlib.Data.List.Forall2

/-!
# Loops without end

A forever loop that the cursor is inside, with no loop around it that ends in a region,
is never left. It has no end of its own, and a loop around it with a number of passes
counts none as long as the cursor is inside a child of it. So whatever the agent meets,
every edit of a step takes place inside the loop (`Cursor.Edit.endures`), and what it
executes from then on is part of the loop (`Cursor.endures_of_forever`).
-/

namespace Flock

namespace Frame

variable {α : Type} {p : Program α} {inside : String → Bool} {f g : Frame}

/-- The same pass over the same loop, at the same child, an action more perhaps having been
run in it. -/
structure SamePlace (f g : Frame) : Prop where
  node : g.node = f.node
  index : g.index = f.index
  passes : g.passes = f.passes
  ran : f.ran → g.ran

instance : Std.Refl SamePlace := ⟨fun _ => ⟨rfl, rfl, rfl, id⟩⟩

theorem SamePlace.trans {h : Frame} (hfg : SamePlace f g) (hgh : SamePlace g h) : SamePlace f h :=
  ⟨hgh.node.trans hfg.node, hgh.index.trans hfg.index, hgh.passes.trans hfg.passes,
    hgh.ran ∘ hfg.ran⟩

theorem forall₂_samePlace_trans {fs gs hs : List Frame} (hfg : List.Forall₂ SamePlace fs gs)
    (hgh : List.Forall₂ SamePlace gs hs) : List.Forall₂ SamePlace fs hs := by
  induction hfg generalizing hs with
  | nil => exact hgh
  | cons hfirst _ ih =>
      cases hgh with
      | cons hsecond hrest => exact .cons (hfirst.trans hsecond) (ih hrest)

theorem forall₂_samePlace_ran (frames : List Frame) :
    List.Forall₂ SamePlace frames (frames.map fun f => { f with ran := true }) := by
  induction frames with
  | nil => exact .nil
  | cons f outer ih => exact .cons ⟨rfl, rfl, rfl, fun _ => rfl⟩ ih

/-- A loop that does not end in a region, with a pass due and not empty, is not finished. -/
theorem not_isDone_of_isOpen {loop : Loop} {kids : List Nat}
    (hnode : p.node? f.node = some (.block loop kids)) (hloop : ∀ region, loop ≠ .untilIn region)
    (hkids : kids ≠ []) (hopen : f.IsOpen p) : f.isDone p inside = false := by
  cases loop with
  | forever => exact isDone_forever hnode
  | untilIn region => exact absurd rfl (hloop region)
  | times count =>
      have hlt := hopen count kids hnode
      rw [isDone_times hnode, List.isEmpty_eq_false_iff.mpr hkids, Bool.false_or,
        decide_eq_false_iff_not]
      omega

/-- Moving on loses no pass. -/
theorem passes_le_advance (h : f.passes ≤ greatestPassCount) :
    f.passes ≤ (f.advance p).passes := by
  unfold advance
  split
  · exact Nat.le_refl _
  · show f.passes ≤ f.passesAfter p
    unfold passesAfter
    split
    · split <;> omega
    · omega

end Frame

namespace Cursor

variable {α : Type} {p : Program α} {inside : String → Bool} {c d : Cursor} {index : Nat}
  {f g : Frame} {inner outer around : List Frame}

/-- The frame `f`, with those in `outer` around it, has become the frame `g`, with those in
`around`: the same loop with no pass lost, inside the same passes over the same loops. -/
structure Kept (f : Frame) (outer : List Frame) (g : Frame) (around : List Frame) : Prop where
  node : g.node = f.node
  passes : f.passes ≤ g.passes
  around : List.Forall₂ Frame.SamePlace outer around

/-- The cursor is inside the loop of `f` still, and has not left a loop around it. -/
def Endures (f : Frame) (outer : List Frame) (c : Cursor) : Prop :=
  ∃ inner g around, c.frames = inner ++ g :: around ∧ Kept f outer g around

theorem Kept.refl (f : Frame) (outer : List Frame) : Kept f outer f outer :=
  ⟨rfl, Nat.le_refl _, List.forall₂_refl outer⟩

theorem Kept.trans {h : Frame} {rest : List Frame} (hg : Kept f outer g around)
    (hh : Kept g around h rest) : Kept f outer h rest :=
  ⟨hh.node.trans hg.node, Nat.le_trans hg.passes hh.passes,
    Frame.forall₂_samePlace_trans hg.around hh.around⟩

theorem Endures.of_kept (hkept : Kept f outer g around) (h : Endures g around c) :
    Endures f outer c := by
  obtain ⟨inner, g', around', hframes, hkept'⟩ := h
  exact ⟨inner, g', around', hframes, hkept.trans hkept'⟩

/-- No frame of the list stands in a loop that ends in a region. -/
def NoneUntil (p : Program α) (frames : List Frame) : Prop :=
  ∀ g ∈ frames, ∀ region kids, p.node? g.node ≠ some (.block (.untilIn region) kids)

theorem NoneUntil.of_forall₂ (h : NoneUntil p outer)
    (hsame : List.Forall₂ Frame.SamePlace outer around) : NoneUntil p around := by
  induction hsame with
  | nil => exact h
  | cons hfirst _ ih =>
      rw [NoneUntil, List.forall_mem_cons] at h ⊢
      exact ⟨by rw [hfirst.node]; exact h.1, ih h.2⟩

/-- Around a frame no loop is finished, unless it ends in a region. -/
theorem Nested.not_isDone_around (h : Nested p index (f :: outer)) (huntil : NoneUntil p outer) :
    ∀ g ∈ outer, g.isDone p inside = false := by
  induction outer generalizing f with
  | nil => simp
  | cons g outer ih =>
      obtain ⟨-, hplace, houter, hnested⟩ := h
      rw [NoneUntil, List.forall_mem_cons] at huntil
      refine List.forall_mem_cons.mpr ⟨?_, ih hnested huntil.2⟩
      obtain ⟨loop, kids, hnode, -⟩ := hnested.1
      refine Frame.not_isDone_of_isOpen hnode ?_ ?_ (houter g rfl).1
      · rintro region rfl
        exact huntil.1 region kids hnode
      · rw [level, spot, Frame.children_eq hnode] at hplace
        rintro rfl
        simp at hplace

/-! One edit. -/

/-- Moving on inside a loop, or in the loop itself, loses no pass of it. -/
theorem endures_advance (hpasses : g.passes ≤ greatestPassCount) (index : Nat)
    (inner around : List Frame) :
    Endures g around ((⟨index, inner ++ g :: around, none⟩ : Cursor).advance p) := by
  cases inner with
  | nil =>
      exact ⟨[], g.advance p, around, rfl, Frame.node_advance p g, Frame.passes_le_advance hpasses,
        List.forall₂_refl around⟩
  | cons f inner => exact ⟨f.advance p :: inner, g, around, rfl, .refl g around⟩

/-- A loop that is finished, among frames whose outer part is not, is one of the inner ones. -/
theorem finished_of_append {f : Frame} {inner' rest : List Frame}
    (h : inner ++ g :: around = inner' ++ f :: rest) (hdone : f.isDone p inside)
    (hopen : ∀ g' ∈ g :: around, g'.isDone p inside = false) :
    ∃ between, rest = between ++ g :: around := by
  rcases List.append_eq_append_iff.mp h with ⟨between, -, hrest⟩ | ⟨between, -, hrest⟩
  · have hmem : f ∈ g :: around := by
      rw [hrest]
      exact List.mem_append_right _ List.mem_cons_self
    exact absurd hdone (by simp [hopen f hmem])
  · cases between with
    | nil =>
        obtain ⟨rfl, -⟩ := List.cons.inj hrest
        exact absurd hdone (by simp [hopen f List.mem_cons_self])
    | cons first between => exact ⟨between, (List.cons.inj hrest).2⟩

/-- An edit takes place inside any loop that is not finished, nor any loop around it. -/
theorem Edit.endures (h : Edit p inside c d) (hframes : c.frames = inner ++ g :: around)
    (hpasses : g.passes ≤ greatestPassCount)
    (hopen : ∀ g' ∈ g :: around, g'.isDone p inside = false) : Endures g around d := by
  cases h with
  | entered hhop =>
      obtain ⟨-, id, loop, kids, -, -, rfl⟩ := entered_of_hop hhop
      exact ⟨.enter id :: inner, g, around, by rw [hframes, List.cons_append], .refl g around⟩
  | left hsplit hdone =>
      obtain ⟨between, rfl⟩ := finished_of_append (hframes.symm.trans hsplit) hdone hopen
      exact endures_advance hpasses c.index between around
  | marked =>
      refine ⟨ranFrames inner, { g with ran := true }, ranFrames around, ?_, rfl, Nat.le_refl _,
        Frame.forall₂_samePlace_ran around⟩
      simp [Cursor.markRan, hframes, ranFrames]
  | passed =>
      rw [hframes]
      exact endures_advance hpasses c.index inner around
  | waited => exact ⟨inner, g, around, hframes, .refl g around⟩

/-! Whole steps, and runs of them. -/

/-- What is kept of a forever loop by an edit whatever regions the agent is in. -/
theorem Endures.edit {kids : List Nat} (hc : Nested p c.index c.frames)
    (hpasses : ∀ g ∈ c.frames, g.passes ≤ greatestPassCount)
    (hnode : p.node? f.node = some (.block .forever kids)) (huntil : NoneUntil p outer)
    (h : Endures f outer c) (hedit : Edit p inside c d) : Endures f outer d := by
  obtain ⟨inner, g, around, hframes, hkept⟩ := h
  have hg : g ∈ c.frames := by
    rw [hframes]
    exact List.mem_append_right _ List.mem_cons_self
  rw [hframes] at hc
  refine (hedit.endures hframes (hpasses g hg) (List.forall_mem_cons.mpr ⟨?_, ?_⟩)).of_kept hkept
  · exact Frame.isDone_forever (by rw [hkept.node]; exact hnode)
  · exact hc.of_append.not_isDone_around (huntil.of_forall₂ hkept.around)

theorem Endures.edits {kids : List Nat} (hc : Nested p c.index c.frames)
    (hpasses : ∀ g ∈ c.frames, g.passes ≤ greatestPassCount)
    (hnode : p.node? f.node = some (.block .forever kids)) (huntil : NoneUntil p outer)
    (h : Endures f outer c) (hedits : Edits p inside c d) : Endures f outer d := by
  induction hedits with
  | refl => exact h
  | tail hfirst hlast ih =>
      exact ih.edit (Edits.nested hfirst hc) ((lasting_passes_le p).edits hfirst hpasses) hnode
        huntil hlast

/-- The node is part of a loop: a child of it, or part of one. -/
def Within (p : Program α) (loop node : Nat) : Prop :=
  Relation.TransGen (fun parent kid => kid ∈ p.children parent) loop node

/-- A cursor inside a loop stands at a part of it. -/
theorem within_of_current? {inner : List Frame} {node : Nat}
    (h : Nested p index (inner ++ g :: around))
    (hnode : (level p (inner ++ g :: around))[spot index (inner ++ g :: around)]? = some node) :
    Within p g.node node := by
  induction inner generalizing node with
  | nil => exact .single (List.mem_of_getElem? hnode)
  | cons f inner ih =>
      obtain ⟨-, hplace, -, hnested⟩ := h
      exact .tail (ih hnested hplace) (List.mem_of_getElem? hnode)

theorem Endures.not_isExhausted (h : Endures f outer c) : c.isExhausted p = false := by
  obtain ⟨inner, g, around, hframes, -⟩ := h
  simp [isExhausted, hframes]

variable [Scalar α] [Circular α]

/-- One step or more, or none, lead from one cursor to another: steps that succeed or fail,
each with a body, surroundings and random words of its own. -/
inductive Later (p : Program α) (c : Cursor) : Cursor → Prop where
  | refl : Later p c c
  | step {d : Cursor} (h : Later p c d) (id : AgentId) (view : Surroundings α) (b : Body α)
      (words : WordStream) : Later p c (d.step p id view b words).1

theorem Reachable.later (hc : Reachable p c) (h : Later p c d) : Reachable p d := by
  induction h with
  | refl => exact hc
  | step _ id view b words ih => exact ih.step id view b words

theorem Endures.edits_of_reachable {kids : List Nat} (hc : Reachable p c)
    (hnode : p.node? f.node = some (.block .forever kids)) (huntil : NoneUntil p outer)
    (h : Endures f outer c) (hedits : Edits p inside c d) : Endures f outer d :=
  h.edits (sound_of_reachable hc).nested ((lasting_passes_le p).of_reachable hc) hnode huntil hedits

theorem Endures.later {kids : List Nat} (hc : Reachable p c)
    (hnode : p.node? f.node = some (.block .forever kids)) (huntil : NoneUntil p outer)
    (h : Endures f outer c) (hd : Later p c d) : Endures f outer d := by
  induction hd with
  | refl => exact h
  | step hd id view b words ih =>
      have hreach := hc.later hd
      exact ih.edits_of_reachable hreach hnode huntil
        (edits_step (sound_of_reachable hreach) id view b words)

/-- A step from inside the loop executes a part of it, if anything, and does not come to the
end of the program. -/
theorem Endures.turn {kids : List Nat} (hc : Reachable p c)
    (hnode : p.node? f.node = some (.block .forever kids)) (huntil : NoneUntil p outer)
    (h : Endures f outer c) (id : AgentId) (view : Surroundings α) (b : Body α)
    (words : WordStream) {turn : Turn α} (hturn : (c.step p id view b words).2 = .ok turn) :
    turn.report.exhausted = false ∧
      ∀ node a, turn.report.executed = some (node, a) → Within p f.node node := by
  have hlast := h.later hc hnode huntil (.step .refl id view b words)
  have hfound := h.edits_of_reachable hc hnode huntil (edits_found p (view.inRegion b.position) c)
  have houtcome := outcome_step p id view c b words
  generalize c.step p id view b words = result at houtcome hturn hlast
  cases houtcome with
  | failed => exact absurd hturn (by simp)
  | idle =>
      obtain rfl := Except.ok.inj hturn
      exact ⟨hlast.not_isExhausted, fun node a hran => absurd hran (by simp)⟩
  | executed haction =>
      obtain rfl := Except.ok.inj hturn
      refine ⟨hlast.not_isExhausted, ?_⟩
      intro node a hran
      obtain ⟨rfl, rfl⟩ := Prod.mk.inj (Option.some.inj hran)
      obtain ⟨inner, g, around, hframes, hkept⟩ := hfound
      have hnested : Nested p (c.found p (view.inRegion b.position)).cursor.index
          (c.found p (view.inRegion b.position)).cursor.frames :=
        (sound_of_reachable hc).found.nested
      have hid := (reached_of_hop (hop_found haction)).2.1
      rw [current?_eq, hframes] at hid
      rw [hframes] at hnested
      rw [← hkept.node]
      exact within_of_current? hnested hid

/-- A forever loop around which no loop ends in a region is never left. After any number of
further steps the cursor is inside it, with no pass lost and the loops around it where they
were, and so it goes on; no step executes anything that is not part of the loop, and none
comes to the end of the program. -/
theorem endures_of_forever (hc : Reachable p c) (hframes : c.frames = inner ++ f :: outer)
    {kids : List Nat} (hnode : p.node? f.node = some (.block .forever kids))
    (huntil : NoneUntil p outer) (hd : Later p c d) :
    ∃ inner' g around, d.frames = inner' ++ g :: around ∧ Kept f outer g around ∧
      (∀ e, Later p d e → Endures g around e) ∧
      ∀ (id : AgentId) (view : Surroundings α) (b : Body α) (words : WordStream) (turn : Turn α),
        (d.step p id view b words).2 = .ok turn →
          turn.report.exhausted = false ∧
            ∀ node a, turn.report.executed = some (node, a) → Within p f.node node := by
  have hendures : Endures f outer d :=
    Endures.later hc hnode huntil ⟨inner, f, outer, hframes, .refl f outer⟩ hd
  have hreach := hc.later hd
  obtain ⟨inner', g, around, hframes', hkept⟩ := id hendures
  refine ⟨inner', g, around, hframes', hkept, ?_, ?_⟩
  · intro e he
    exact Endures.later hreach (by rw [hkept.node]; exact hnode) (huntil.of_forall₂ hkept.around)
      ⟨inner', g, around, hframes', .refl g around⟩ he
  · intro id view b words turn hturn
    exact hendures.turn hreach hnode huntil id view b words hturn

/-- A program of a forever loop in the first of two passes, after a step that executes its
signal. Another step later the forever loop has completed two passes, not one, and the two
passes around it are where they were. -/
theorem endures_of_forever_in_times :
    ∃ p : Program Whole,
      Program.ofEvents [.startTimes 2, .startForever, .signal "x", .finish, .finish] = .ok p ∧
      let view := Surroundings.alone ([] : List (Region Whole))
      let b := Body.atPoint (⟨0, 0⟩ : Point Whole)
      let c := (start.step p ⟨1, 0⟩ view b (.ofSeed 0)).1
      let d := (c.step p ⟨1, 0⟩ view b (.ofSeed 0)).1
      c.frames = [] ++ (⟨1, 0, 1, false⟩ : Frame) :: [⟨2, 0, 0, true⟩] ∧
        d.frames = [⟨1, 0, 2, false⟩, ⟨2, 0, 0, true⟩] ∧
        Endures ⟨1, 0, 1, false⟩ [⟨2, 0, 0, true⟩] d := by
  let p : Program Whole :=
    ⟨#[.action (.signal "x"), .block .forever [0], .block (.times 2) [1]], [2]⟩
  have hbuilt : Program.ofEvents
      [.startTimes 2, .startForever, .signal "x", .finish, .finish] = .ok p := by decide
  refine ⟨p, hbuilt, ?_⟩
  intro view b c d
  have hframes : c.frames = [] ++ (⟨1, 0, 1, false⟩ : Frame) :: [⟨2, 0, 0, true⟩] := rfl
  have huntil : NoneUntil p [⟨2, 0, 0, true⟩] := by
    intro g hg
    obtain rfl := List.mem_singleton.mp hg
    intro region kids h
    simp [p, Program.node?] at h
  obtain ⟨inner, g, around, hd, hkept, -⟩ := endures_of_forever (.step .start _ _ _ _) hframes
    (show p.node? 1 = some (.block .forever [0]) from rfl) huntil
    (.step .refl ⟨1, 0⟩ view b (.ofSeed 0))
  exact ⟨hframes, rfl, inner, g, around, hd, hkept⟩

end Cursor

end Flock
