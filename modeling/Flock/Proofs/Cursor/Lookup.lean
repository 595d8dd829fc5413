import Flock.Proofs.Cursor.Limit

/-!
# The nodes that a step looks up

`Cursor.step` takes a number without a node for a place where there is nothing.
`Cursor.step?` is the same step with every such lookup made to fail, and the whole step
with it: a frame is read off the node it stands in, a loop is moved past or entered
only if it is there (`Program.readOff`). On a sound cursor of a sound program no lookup
fails, so both steps agree (`Sound.step?_eq`).
-/

namespace Flock

variable {α : Type}

/-- A value that is read off the node with a given number, if there is such a node. -/
def Program.readOff {β : Type} (p : Program α) (id : Nat) (value : β) : Option β :=
  (p.node? id).map fun _ => value

theorem Program.readOff_eq {β : Type} {p : Program α} {id : Nat} {node : Node α}
    (h : p.node? id = some node) (value : β) : p.readOff id value = some value := by
  simp [readOff, h]

namespace Cursor

/-- The node at the place of the cursor, the outer answer being `none` where the loop
it stands in is missing. -/
def place? (p : Program α) (c : Cursor) : Option (Option Nat) :=
  match c.frames with
  | [] => some (c.current? p)
  | f :: _ => p.readOff f.node (c.current? p)

def advance? (p : Program α) (c : Cursor) : Option Cursor :=
  match c.frames with
  | [] => some (c.advance p)
  | f :: _ => p.readOff f.node (c.advance p)

def outermostDone? (p : Program α) (inside : String → Bool) :
    List Frame → Option (Option (List Frame))
  | [] => some none
  | f :: outer => do
    match ← outermostDone? p inside outer with
    | some around => return some around
    | none =>
      let done ← p.readOff f.node (f.isDone p inside)
      return if done then some outer else none

def settle? (p : Program α) (inside : String → Bool) (index : Nat) :
    List Frame → Option (Nat × List Frame × Nat)
  | [] => some (index + 1, [], 0)
  | f :: outer => do
    let f ← p.readOff f.node (f.advance p)
    let done ← p.readOff f.node (f.isDone p inside)
    if done then
      let (index, frames, closed) ← settle? p inside index outer
      return (index, frames, closed + 1)
    else return (index, f :: outer, 0)

def closeFinished? (p : Program α) (inside : String → Bool) (c : Cursor) :
    Option (Cursor × Nat) := do
  match ← outermostDone? p inside c.frames with
  | none => return (c, 0)
  | some outer =>
    let (index, frames, closed) ← settle? p inside c.index outer
    return (⟨index, frames, none⟩, closed + 1)

def look? (p : Program α) (c : Cursor) : Option (Hop α) := do
  match ← c.place? p with
  | none => return .rest
  | some id =>
    match ← p.node? id with
    | .action a => return .reached id a
    | .block .. => return .entered { c with frames := .enter id :: c.frames }

def hop? (p : Program α) (inside : String → Bool) (c : Cursor) : Option (Hop α) :=
  match c.frames with
  | [] => c.look? p
  | f :: outer => do
    let done ← p.readOff f.node (f.isDone p inside)
    if done then
      let next ← ({ c with frames := outer, waitLeft := none } : Cursor).advance? p
      return .closed next
    else c.look? p

def seek? (p : Program α) (inside : String → Bool) : Nat → Cursor → Option (Found α)
  | 0, c => some ⟨c, 0, none⟩
  | n + 1, c => do
    match ← c.hop? p inside with
    | .reached node action => return ⟨c, 0, some (node, action)⟩
    | .rest => return ⟨c, 0, none⟩
    | .entered next => seek? p inside n next
    | .closed next =>
      let found ← seek? p inside n next
      return { found with closed := found.closed + 1 }

/-- The step, as far as every node that it looks up is there. -/
def step? [Scalar α] [Circular α] (p : Program α) (id : AgentId) (view : Surroundings α)
    (c : Cursor) (b : Body α) (words : WordStream) :
    Option (Cursor × Except (Fault α) (Turn α)) := do
  let inside := view.inRegion b.position
  let (c, abandoned) ← c.closeFinished? p inside
  let found ← c.seek? p inside (hopLimit p)
  let closed := (abandoned + found.closed).toUInt32
  match found.action? with
  | none => return (found.cursor, .ok ⟨b, words, none, closed, found.cursor.isExhausted p⟩)
  | some (node, action) =>
    let c := found.cursor.markRan
    -- The cursor may have to move past the action.
    let _ ← c.advance? p
    match c.execute p id view b words action with
    | .error fault => return (c, .error fault)
    | .ok (c, b, words) =>
      return (c, .ok ⟨b, words, some (node, action), closed, c.isExhausted p⟩)

variable {p : Program α} {inside : String → Bool} {c : Cursor} {index : Nat}
  {frames : List Frame}

theorem Nested.advance?_eq (h : Nested p c.index c.frames) :
    c.advance? p = some (c.advance p) := by
  unfold advance?
  cases hframes : c.frames with
  | nil => rfl
  | cons f outer =>
      rw [hframes] at h
      obtain ⟨loop, kids, hnode, -⟩ := h.1
      exact Program.readOff_eq hnode _

theorem Nested.outermostDone?_eq (h : Nested p index frames) :
    outermostDone? p inside frames = some (aroundDone? (·.isDone p inside) frames) := by
  induction frames with
  | nil => rfl
  | cons f outer ih =>
      obtain ⟨⟨loop, kids, hnode, -⟩, -, -, houter⟩ := h
      simp only [outermostDone?, ih houter, Program.readOff_eq hnode, aroundDone?]
      cases aroundDone? (·.isDone p inside) outer <;> simp

theorem Nested.settle?_eq (h : Nested p index frames) :
    settle? p inside index frames = some (settle p inside index frames) := by
  induction frames with
  | nil => rfl
  | cons f outer ih =>
      obtain ⟨⟨loop, kids, hnode, -⟩, -, -, houter⟩ := h
      have hadvanced : p.node? (f.advance p).node = some (.block loop kids) := by
        rw [Frame.node_advance, hnode]
      simp only [settle?, settle, Program.readOff_eq hnode, Program.readOff_eq hadvanced,
        ih houter, Option.bind_eq_bind, Option.bind_some]
      split <;> rfl

theorem Sound.closeFinished?_eq (h : Sound p c) :
    c.closeFinished? p inside = some (c.closeFinished p inside) := by
  simp only [closeFinished?, Cursor.closeFinished, h.nested.outermostDone?_eq,
    Option.bind_eq_bind, Option.bind_some]
  cases haround : aroundDone? (·.isDone p inside) c.frames with
  | none => rfl
  | some outer =>
      obtain ⟨inner, f, hsplit, -⟩ := aroundDone?_eq_some haround
      -- what is left open are the frames around the loop that is done
      have hnested := h.nested
      rw [hsplit] at hnested
      have houter : Nested p c.index outer := hnested.of_append.around.nested
      simp [houter.settle?_eq]

section Search

variable (hp : p.Sound)

include hp

theorem Nested.look?_eq (h : Nested p c.index c.frames) : c.look? p = some (c.look p) := by
  have hplace : c.place? p = some (c.current? p) := by
    unfold place?
    cases hframes : c.frames with
    | nil => rfl
    | cons f outer =>
        rw [hframes] at h
        obtain ⟨loop, kids, hnode, -⟩ := h.1
        exact Program.readOff_eq hnode _
  simp only [look?, look, hplace, Option.bind_eq_bind, Option.bind_some]
  cases hid : c.current? p with
  | none => rfl
  | some id =>
      rw [current?_eq] at hid
      obtain ⟨node, hnode⟩ := p.exists_node? (named_level hp h id (List.mem_of_getElem? hid))
      cases node <;> simp [hnode]

theorem Nested.hop?_eq (h : Nested p c.index c.frames) :
    c.hop? p inside = some (c.hop p inside) := by
  have hlook := h.look?_eq hp
  unfold hop? hop
  cases hframes : c.frames with
  | nil => exact hlook
  | cons f outer =>
      rw [hframes] at h
      obtain ⟨⟨loop, kids, hnode, -⟩, -, -, houter⟩ := h
      have hadvance : ({ c with frames := outer, waitLeft := none } : Cursor).advance? p = _ :=
        Nested.advance?_eq houter
      simp only [Program.readOff_eq hnode, hadvance, hlook, Option.bind_eq_bind, Option.bind_some]
      split <;> rfl

theorem Sound.seek?_eq (h : Sound p c) (n : Nat) :
    c.seek? p inside n = some (c.seek p inside n) := by
  induction n generalizing c with
  | zero => rfl
  | succ n ih =>
      simp only [seek?, Cursor.seek, h.nested.hop?_eq hp, Option.bind_eq_bind, Option.bind_some]
      cases hhop : c.hop p inside with
      | reached node action => rfl
      | rest => rfl
      | entered next => exact ih (h.entered hhop)
      | closed next => simp [ih (h.closed hhop)]

/-- No lookup of a step fails. -/
theorem Sound.step?_eq [Scalar α] [Circular α] (h : Sound p c) (id : AgentId)
    (view : Surroundings α) (b : Body α) (words : WordStream) :
    c.step? p id view b words = some (c.step p id view b words) := by
  have hfound : Sound p (c.found p (view.inRegion b.position)).cursor := h.found
  have hadvance := hfound.markRan.nested.advance?_eq
  simp only [Cursor.found] at hadvance
  simp only [step?, Cursor.step, h.closeFinished?_eq, h.closeFinished.seek?_eq hp,
    Option.bind_eq_bind, Option.bind_some]
  generalize Cursor.seek p _ _ (c.closeFinished p _).1 = found at hadvance ⊢
  cases found.action? with
  | none => rfl
  | some reached =>
      simp only [hadvance, Option.bind_some]
      cases found.cursor.markRan.execute p id view b words reached.2 <;> rfl

end Search

end Cursor

end Flock
