import Flock.Agent.Body

/-!
# Rosters

A roster holds the members of a population under handles, in the order of their
arrival. The slot of a member that has left goes to the next one to arrive, the
slot given back last first; the handle is a new one all the same, because its
serial number is.
-/

namespace Flock

/-- The members of a population. -/
structure Roster (β : Type) where
  /-- The members with their handles, in the order of arrival. -/
  entries : List (AgentId × β)
  /-- The slots given back, the last one first. -/
  freed : List Nat
  /-- The lowest slot never given out. -/
  fresh : Nat
  /-- The serial number of the next handle. -/
  serial : Nat
deriving DecidableEq, Repr

namespace Roster

variable {β : Type}

/-- The roster without members. Slots are counted from 1. -/
def empty : Roster β := ⟨[], [], 1, 0⟩

/-- The handle that the next member will get. -/
def nextId (r : Roster β) : AgentId := ⟨r.freed.headD r.fresh, r.serial⟩

/-- The roster with one more member, which gets the next handle. -/
def insert (r : Roster β) (member : β) : Roster β where
  entries := r.entries ++ [(r.nextId, member)]
  freed := r.freed.tail
  fresh := if r.freed.isEmpty then r.fresh + 1 else r.fresh
  serial := r.serial + 1

def find? (r : Roster β) (id : AgentId) : Option β :=
  (r.entries.find? (·.1 = id)).map (·.2)

/-- The handles in the order of arrival. -/
def ids (r : Roster β) : List AgentId := r.entries.map (·.1)

def size (r : Roster β) : Nat := r.entries.length

/-- The roster without the member that has a handle. A handle that no member has
changes nothing. -/
def erase (r : Roster β) (id : AgentId) : Roster β :=
  match r.find? id with
  | none => r
  | some _ =>
    { r with entries := r.entries.filter (·.1 ≠ id), freed := id.slot :: r.freed }

def update (r : Roster β) (id : AgentId) (change : β → β) : Roster β :=
  { r with entries := r.entries.map fun e => if e.1 = id then (e.1, change e.2) else e }

def updateAll (r : Roster β) (change : β → β) : Roster β :=
  { r with entries := r.entries.map fun e => (e.1, change e.2) }

theorem ids_insert (r : Roster β) (member : β) : (r.insert member).ids = r.ids ++ [r.nextId] := by
  simp [ids, insert]

theorem ids_update (r : Roster β) (id : AgentId) (change : β → β) :
    (r.update id change).ids = r.ids := by
  simp only [ids, update, List.map_map]
  apply List.map_congr_left
  intro e _
  by_cases h : e.1 = id <;> simp [h]

theorem ids_updateAll (r : Roster β) (change : β → β) : (r.updateAll change).ids = r.ids := by
  simp [ids, updateAll]

theorem size_eq_length_ids (r : Roster β) : r.size = r.ids.length := by
  simp [size, ids]

end Roster

end Flock
