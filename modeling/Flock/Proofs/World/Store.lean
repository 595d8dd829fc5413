import Flock.Proofs.World.Roster

/-!
# Populations in slots

A roster lists its members with their handles. `Store` keeps the same population in two
places that are changed one by one: the members in slots, each with the serial number of its
handle, and the handles in a list of their own, in the order of arrival. A handle is looked
up in its slot, and whoever goes through the list passes over handles that are not found.

Nothing is ever passed over, as the two places hold the same handles (`Store.Synced`). All
that can be done to a store comes to what is done to the roster that it stands for
(`Store.roster`).
-/

namespace Flock

theorem AgentId.eq_of_slot_of_serial {a b : AgentId} (hslot : a.slot = b.slot)
    (hserial : a.serial = b.serial) : a = b := by
  cases a
  cases b
  exact congrArg₂ AgentId.mk hslot hserial

namespace Roster

variable {β : Type}

theorem map_update_of_not_mem {entries : List (AgentId × β)} {id : AgentId}
    (h : id ∉ entries.map (·.1)) (member : β) :
    (entries.map fun e => if e.1 = id then (e.1, member) else e) = entries := by
  refine (List.map_congr_left fun e he => if_neg ?_).trans (List.map_id entries)
  rintro rfl
  exact h (List.mem_map_of_mem he)

/-- If there is a new member for each of the last handles, in order, the changes of one after
the other come to the change of all of them. -/
theorem foldl_update_append {r : Roster β} {front rest members : List (AgentId × β)}
    (hentries : r.entries = front ++ rest) (hids : members.map (·.1) = rest.map (·.1))
    (hnodup : r.ids.Nodup) :
    members.foldl (fun r e => r.update e.1 fun _ => e.2) r =
      { r with entries := front ++ members } := by
  induction members generalizing r front rest with
  | nil =>
      obtain rfl : rest = [] := List.map_eq_nil_iff.mp hids.symm
      rw [List.foldl_nil, ← hentries]
  | cons e members ih =>
      obtain ⟨old, rest, rfl, hold, hrest⟩ := List.map_eq_cons_iff.mp hids.symm
      have hnew : (r.update e.1 fun _ => e.2).entries = (front ++ [e]) ++ rest := by
        rw [ids, hentries, List.map_append, List.map_cons, hold] at hnodup
        obtain ⟨-, hback, hdisjoint⟩ := List.nodup_append.mp hnodup
        have hfront : e.1 ∉ front.map (·.1) := fun hmem =>
          hdisjoint e.1 hmem e.1 List.mem_cons_self rfl
        rw [update, hentries, List.map_append, List.map_cons, map_update_of_not_mem hfront,
          map_update_of_not_mem (List.nodup_cons.mp hback).1, if_pos hold, hold]
        simp
      rw [List.foldl_cons, ih hnew hrest.symm (by rw [ids_update]; exact hnodup),
        List.append_assoc, List.singleton_append]
      rfl

/-- If there is a new member for each handle, in order, the changes of one after the other come
to the change of all of them. -/
theorem foldl_update_eq {r : Roster β} {members : List (AgentId × β)} (hnodup : r.ids.Nodup)
    (hids : members.map (·.1) = r.ids) :
    members.foldl (fun r e => r.update e.1 fun _ => e.2) r = { r with entries := members } :=
  foldl_update_append (List.nil_append _).symm hids hnodup

end Roster

/-- A population in slots. -/
structure Store (β : Type) where
  /-- What each slot holds: a member with the serial number of its handle, or nothing. -/
  slots : List (Option (Nat × β))
  /-- The slots given back, the last one first. -/
  freed : List Nat
  /-- The serial number of the next handle. -/
  serial : Nat
  /-- The handles in the order of arrival. -/
  order : List AgentId

namespace Store

variable {β : Type}

/-- The store without members. Slots are counted from 1, so the first one is never used. -/
def empty : Store β := ⟨[none], [], 0, []⟩

/-- The handle that the next member will get. -/
def nextId (s : Store β) : AgentId := ⟨s.freed.headD s.slots.length, s.serial⟩

/-- What a slot holds, if there is such a slot. -/
def held (s : Store β) (slot : Nat) : Option (Nat × β) := s.slots[slot]?.join

/-- The member in the slot of a handle, if it has got that handle. -/
def get? (s : Store β) (id : AgentId) : Option β :=
  ((s.held id.slot).filter (·.1 = id.serial)).map (·.2)

/-- The slots with one more if none is free. -/
def room (s : Store β) : List (Option (Nat × β)) :=
  if s.freed.isEmpty then s.slots ++ [none] else s.slots

/-- One more member is put into a slot, and its handle at the end of the list. -/
def insert (s : Store β) (member : β) : Store β where
  slots := s.room.set s.nextId.slot (some (s.serial, member))
  freed := s.freed.tail
  serial := s.serial + 1
  order := s.order ++ [s.nextId]

/-- The member with a handle is taken out of its slot, and the handle out of the list. -/
def remove (s : Store β) (id : AgentId) : Store β :=
  match s.get? id with
  | none => s
  | some _ =>
    { s with
      slots := s.slots.set id.slot none
      freed := id.slot :: s.freed
      order := s.order.filter (· ≠ id) }

/-- The member with a handle is changed in its slot. -/
def update (s : Store β) (id : AgentId) (change : β → β) : Store β :=
  match s.get? id with
  | none => s
  | some member => { s with slots := s.slots.set id.slot (some (id.serial, change member)) }

/-- The members are changed in all slots. -/
def updateAll (s : Store β) (change : β → β) : Store β :=
  { s with slots := s.slots.map (Option.map fun e => (e.1, change e.2)) }

/-- Other members take the place of those with their handles, one after the other. -/
def assign (s : Store β) (members : List (AgentId × β)) : Store β :=
  members.foldl (fun s e => s.update e.1 fun _ => e.2) s

/-- The members in the order of arrival. A handle that is not found is passed over. -/
def entries (s : Store β) : List (AgentId × β) :=
  s.order.filterMap fun id => (s.get? id).map (id, ·)

/-- The roster that a store stands for. -/
def roster (s : Store β) : Roster β := ⟨s.entries, s.freed, s.slots.length, s.serial⟩

/-- The handles in the list are those that are found, and the slots given back are empty. -/
structure Synced (s : Store β) : Prop where
  nodup : s.order.Nodup
  mem_iff : ∀ id, id ∈ s.order ↔ (s.get? id).isSome
  serial_lt : ∀ id ∈ s.order, id.serial < s.serial
  freed_nodup : s.freed.Nodup
  vacant : ∀ slot ∈ s.freed, s.slots[slot]? = some none

variable {s next : Store β} {id other : AgentId} {member : β}

theorem get?_eq_some_iff : s.get? id = some member ↔ s.held id.slot = some (id.serial, member) := by
  simp only [get?, Option.map_eq_some_iff, Option.filter_eq_some_iff, decide_eq_true_eq]
  constructor
  · rintro ⟨⟨serial, found⟩, ⟨hfound, rfl⟩, rfl⟩
    exact hfound
  · intro h
    exact ⟨_, ⟨h, rfl⟩, rfl⟩

theorem get?_eq_none_of_held (h : s.held id.slot = none) : s.get? id = none := by
  rw [get?, h]
  rfl

theorem synced_empty : (empty : Store β).Synced where
  nodup := List.nodup_nil
  mem_iff id := by
    have hheld : (empty : Store β).held id.slot = none := by cases id.slot <;> rfl
    rw [get?_eq_none_of_held hheld]
    simp [empty]
  serial_lt := by simp [empty]
  freed_nodup := List.nodup_nil
  vacant := by simp [empty]

/-- No other handle is found in the slot of a handle. -/
def Alone (s : Store β) (id : AgentId) : Prop :=
  ∀ other : AgentId, other.slot = id.slot → other ≠ id → s.get? other = none

theorem alone_of_isSome (h : (s.get? id).isSome) : s.Alone id := by
  obtain ⟨member, h⟩ := Option.isSome_iff_exists.mp h
  intro other hslot hne
  rw [Option.eq_none_iff_forall_ne_some]
  intro found hfound
  rw [get?_eq_some_iff, hslot, get?_eq_some_iff.mp h] at hfound
  obtain ⟨hserial, -⟩ := Prod.mk.inj (Option.some.inj hfound)
  exact hne (AgentId.eq_of_slot_of_serial hslot hserial.symm)

/-- What is found after the slot of a handle has been given other content. -/
theorem get?_of_held {content : Option β} (halone : s.Alone id)
    (hheld : ∀ slot, next.held slot =
      if slot = id.slot then content.map (id.serial, ·) else s.held slot) (other : AgentId) :
    next.get? other = if other = id then content else s.get? other := by
  by_cases hslot : other.slot = id.slot
  · have hnext : next.held other.slot = content.map (id.serial, ·) := by rw [hheld, if_pos hslot]
    by_cases heq : other = id
    · subst heq
      rw [if_pos rfl, get?, hnext]
      cases content <;> simp
    · have hserial : id.serial ≠ other.serial := fun hserial =>
        heq (AgentId.eq_of_slot_of_serial hslot hserial.symm)
      rw [if_neg heq, halone other hslot heq, get?, hnext]
      cases content <;> simp [hserial]
  · have heq : other ≠ id := fun heq => hslot (congrArg AgentId.slot heq)
    rw [if_neg heq, get?, get?, hheld, if_neg hslot]

theorem join_set {slots : List (Option (Nat × β))} {slot i : Nat} (hslot : slot < slots.length)
    (content : Option (Nat × β)) :
    (slots.set slot content)[i]?.join = if i = slot then content else slots[i]?.join := by
  rw [List.getElem?_set]
  by_cases h : slot = i
  · subst h
    simp [hslot]
  · rw [if_neg h, if_neg (Ne.symm h)]

theorem held_room (s : Store β) (slot : Nat) : s.room[slot]?.join = s.held slot := by
  unfold room held
  split
  · rw [List.getElem?_append]
    split
    · rfl
    · next hle =>
      rw [List.getElem?_eq_none (Nat.le_of_not_lt hle)]
      rcases slot - s.slots.length with _ | n <;> rfl
  · rfl

theorem slot_lt_of_isSome (h : (s.get? id).isSome) : id.slot < s.slots.length := by
  obtain ⟨member, h⟩ := Option.isSome_iff_exists.mp h
  by_contra hle
  rw [get?_eq_some_iff, held, List.getElem?_eq_none (Nat.le_of_not_lt hle)] at h
  exact absurd h (by simp)

/-! What is found after each operation. -/

theorem get?_remove (s : Store β) (id other : AgentId) :
    (s.remove id).get? other = if other = id then none else s.get? other := by
  unfold remove
  split
  · next hnone =>
    split
    · next heq => rw [heq, hnone]
    · rfl
  · next h =>
    have hfound := Option.isSome_of_eq_some h
    refine get?_of_held (alone_of_isSome hfound) (fun slot => ?_) other
    exact join_set (slot_lt_of_isSome hfound) none

theorem get?_update (s : Store β) (id : AgentId) (change : β → β) (other : AgentId) :
    (s.update id change).get? other =
      if other = id then (s.get? id).map change else s.get? other := by
  unfold update
  split
  · next hnone =>
    split
    · next heq => rw [heq, hnone]; rfl
    · rfl
  · next member h =>
    have hfound := Option.isSome_of_eq_some h
    rw [h]
    refine get?_of_held (alone_of_isSome hfound) (fun slot => ?_) other
    exact join_set (slot_lt_of_isSome hfound) (some (id.serial, change member))

theorem get?_updateAll (s : Store β) (change : β → β) (id : AgentId) :
    (s.updateAll change).get? id = (s.get? id).map change := by
  have hheld : (s.updateAll change).held id.slot =
      (s.held id.slot).map fun e => (e.1, change e.2) := by
    unfold held updateAll
    rw [List.getElem?_map]
    rcases s.slots[id.slot]? with _ | _ | e <;> rfl
  rw [get?, get?, hheld]
  cases s.held id.slot <;> simp [Option.filter]

theorem isSome_get?_update (s : Store β) (id : AgentId) (change : β → β) (other : AgentId) :
    ((s.update id change).get? other).isSome = (s.get? other).isSome := by
  rw [get?_update]
  split
  · next heq => rw [heq, Option.isSome_map]
  · rfl

/-! What an operation does to the roster that a store stands for. -/

theorem mem_entries_iff : (id, member) ∈ s.entries ↔ id ∈ s.order ∧ s.get? id = some member := by
  simp [entries]

theorem remove_of_eq_none (h : s.get? id = none) : s.remove id = s := by
  rw [remove, h]

theorem order_remove (h : s.get? id = some member) :
    (s.remove id).order = s.order.filter (· ≠ id) := by
  rw [remove, h]

theorem order_update (s : Store β) (id : AgentId) (change : β → β) :
    (s.update id change).order = s.order := by
  unfold update
  split <;> rfl

theorem roster_update (s : Store β) (id : AgentId) (change : β → β) :
    (s.update id change).roster = s.roster.update id change := by
  have hentries : (s.update id change).entries =
      s.entries.map fun e => if e.1 = id then (e.1, change e.2) else e := by
    rw [entries, entries, order_update, List.map_filterMap]
    refine List.filterMap_congr fun other _ => ?_
    rw [get?_update]
    by_cases heq : other = id
    · subst heq
      cases h : s.get? other <;> simp
    · cases s.get? other <;> simp [heq]
  rw [roster, hentries]
  unfold update
  split <;> simp [roster, Roster.update]

theorem roster_updateAll (s : Store β) (change : β → β) :
    (s.updateAll change).roster = s.roster.updateAll change := by
  have hentries : (s.updateAll change).entries = s.entries.map fun e => (e.1, change e.2) := by
    rw [entries, entries, List.map_filterMap]
    refine List.filterMap_congr fun id _ => ?_
    rw [get?_updateAll]
    cases s.get? id <;> rfl
  rw [roster, hentries]
  simp [roster, Roster.updateAll, updateAll]

theorem roster_assign (s : Store β) (members : List (AgentId × β)) :
    (s.assign members).roster = members.foldl (fun r e => r.update e.1 fun _ => e.2) s.roster :=
  (List.foldl_hom roster fun s e => (roster_update s e.1 fun _ => e.2).symm).symm

namespace Synced

theorem slot_nextId_lt (h : s.Synced) : s.nextId.slot < s.room.length := by
  cases hfreed : s.freed with
  | nil => simp [nextId, room, hfreed]
  | cons slot rest =>
      have hvacant := h.vacant slot (by simp [hfreed])
      simpa [nextId, room, hfreed] using (List.getElem?_eq_some_iff.mp hvacant).1

/-- The slot of the next handle is empty or new. -/
theorem held_nextId (h : s.Synced) : s.held s.nextId.slot = none := by
  cases hfreed : s.freed with
  | nil => simp [nextId, held, hfreed]
  | cons slot rest =>
      have hvacant := h.vacant slot (by simp [hfreed])
      simp [nextId, held, hfreed, hvacant]

theorem get?_insert (h : s.Synced) (member : β) (id : AgentId) :
    (s.insert member).get? id = if id = s.nextId then some member else s.get? id := by
  have halone : s.Alone s.nextId := fun other hslot _ =>
    get?_eq_none_of_held (hslot ▸ h.held_nextId)
  refine get?_of_held halone (fun slot => ?_) id
  exact (join_set h.slot_nextId_lt _).trans (by rw [held_room]; rfl)

theorem ids_eq (h : s.Synced) : s.roster.ids = s.order := by
  have hfound : ∀ id ∈ s.order, ((s.get? id).map (id, ·)).map (·.1) = some id := by
    intro id hid
    obtain ⟨member, hmember⟩ := Option.isSome_iff_exists.mp ((h.mem_iff id).mp hid)
    rw [hmember]
    rfl
  rw [Roster.ids, roster, entries, List.map_filterMap, List.filterMap_congr hfound,
    List.filterMap_some]

theorem sound (h : s.Synced) : s.roster.Sound := by
  refine ⟨?_, fun id hid => ?_⟩
  · rw [h.ids_eq]
    exact h.nodup
  · rw [h.ids_eq] at hid
    exact h.serial_lt id hid

theorem find?_eq (h : s.Synced) (id : AgentId) : s.roster.find? id = s.get? id := by
  ext member
  rw [Roster.find?_eq_some_iff h.sound]
  refine mem_entries_iff.trans (and_iff_right_of_imp fun hfound => ?_)
  exact (h.mem_iff id).mpr (Option.isSome_of_eq_some hfound)

/-- The slot of a handle that is found has not been given back. -/
theorem slot_not_mem_freed (h : s.Synced) (hfound : s.get? id = some member) :
    id.slot ∉ s.freed := by
  intro hfreed
  have hheld := get?_eq_some_iff.mp hfound
  rw [held, h.vacant _ hfreed] at hheld
  exact absurd hheld (by simp)

theorem nextId_not_mem (h : s.Synced) : s.nextId ∉ s.order := by
  rw [h.mem_iff, get?_eq_none_of_held h.held_nextId]
  simp

theorem roster_insert (h : s.Synced) (member : β) :
    (s.insert member).roster = s.roster.insert member := by
  have hentries : (s.insert member).entries = s.entries ++ [(s.nextId, member)] := by
    rw [entries, insert, List.filterMap_append]
    change s.order.filterMap (fun id => ((s.insert member).get? id).map (id, ·)) ++
      [s.nextId].filterMap (fun id => ((s.insert member).get? id).map (id, ·)) = _
    congr 1
    · refine List.filterMap_congr fun id hid => ?_
      have hne : id ≠ s.nextId := fun heq => h.nextId_not_mem (heq ▸ hid)
      rw [h.get?_insert, if_neg hne]
    · simp [h.get?_insert]
  rw [roster, hentries]
  cases hfreed : s.freed <;>
    simp [roster, Roster.insert, Roster.nextId, nextId, insert, room, hfreed]

theorem roster_remove (h : s.Synced) (id : AgentId) :
    (s.remove id).roster = s.roster.erase id := by
  cases hmember : s.get? id with
  | none => rw [remove_of_eq_none hmember, Roster.erase, h.find?_eq, hmember]
  | some member =>
      have hentries : (s.remove id).entries = s.entries.filter (·.1 ≠ id) := by
        rw [entries, order_remove hmember, List.filterMap_filter, entries, List.filter_filterMap]
        refine List.filterMap_congr fun other _ => ?_
        rw [get?_remove]
        by_cases heq : other = id
        · subst heq
          cases s.get? other <;> simp [Option.filter]
        · cases s.get? other <;> simp [heq, Option.filter]
      rw [Roster.erase, h.find?_eq, hmember, roster, hentries]
      simp [roster, Store.remove, hmember]

theorem insert (h : s.Synced) (member : β) : (s.insert member).Synced where
  nodup := by
    rw [Store.insert, List.nodup_append_comm]
    exact List.nodup_cons.mpr ⟨h.nextId_not_mem, h.nodup⟩
  mem_iff id := by
    rw [h.get?_insert, Store.insert, List.mem_append, List.mem_singleton, h.mem_iff]
    by_cases heq : id = s.nextId <;> simp [heq]
  serial_lt id hid := by
    rcases List.mem_append.mp hid with hid | hid
    · exact Nat.lt_succ_of_lt (h.serial_lt id hid)
    · rw [List.mem_singleton.mp hid]
      exact Nat.lt_succ_self _
  freed_nodup := h.freed_nodup.tail
  vacant slot hslot := by
    have hnodup := h.freed_nodup
    have hvacant := h.vacant slot (List.mem_of_mem_tail hslot)
    cases hfreed : s.freed with
    | nil =>
        simp [Store.insert, hfreed] at hslot
    | cons first rest =>
        simp only [Store.insert, hfreed, List.tail_cons] at hslot
        rw [hfreed, List.nodup_cons] at hnodup
        have hne : first ≠ slot := by
          rintro rfl
          exact hnodup.1 hslot
        simp [Store.insert, nextId, room, hfreed, List.getElem?_set_ne hne, hvacant]

theorem remove (h : s.Synced) (id : AgentId) : (s.remove id).Synced := by
  have hfound := get?_remove s id
  unfold Store.remove at hfound ⊢
  split
  · exact h
  · next member hmember =>
    simp only [hmember] at hfound
    have hlt := slot_lt_of_isSome (Option.isSome_of_eq_some hmember)
    refine ⟨h.nodup.filter _, fun other => ?_, fun other hother => ?_, ?_, fun slot hslot => ?_⟩
    · rw [hfound, List.mem_filter, h.mem_iff]
      by_cases heq : other = id <;> simp [heq]
    · exact h.serial_lt other (List.mem_of_mem_filter hother)
    · exact List.nodup_cons.mpr ⟨h.slot_not_mem_freed hmember, h.freed_nodup⟩
    · by_cases heq : id.slot = slot
      · simp [← heq, hlt]
      · rcases List.mem_cons.mp hslot with hslot | hslot
        · exact absurd hslot.symm heq
        · simpa [List.getElem?_set_ne heq] using h.vacant slot hslot

theorem update (h : s.Synced) (id : AgentId) (change : β → β) : (s.update id change).Synced := by
  have hfound := isSome_get?_update s id change
  unfold Store.update at hfound ⊢
  split
  · exact h
  · next member hmember =>
    simp only [hmember] at hfound
    refine ⟨h.nodup, fun other => ?_, h.serial_lt, h.freed_nodup, fun slot hslot => ?_⟩
    · rw [hfound]
      exact h.mem_iff other
    · have hne : id.slot ≠ slot := by
        rintro rfl
        exact h.slot_not_mem_freed hmember hslot
      exact (List.getElem?_set_ne hne).trans (h.vacant slot hslot)

theorem updateAll (h : s.Synced) (change : β → β) : (s.updateAll change).Synced := by
  refine ⟨h.nodup, fun id => ?_, h.serial_lt, h.freed_nodup, fun slot hslot => ?_⟩
  · rw [get?_updateAll, Option.isSome_map]
    exact h.mem_iff id
  · rw [Store.updateAll, List.getElem?_map, h.vacant slot hslot]
    rfl

theorem assign (h : s.Synced) (members : List (AgentId × β)) : (s.assign members).Synced := by
  induction members generalizing s with
  | nil => exact h
  | cons e rest ih => exact ih (h.update e.1 fun _ => e.2)

end Synced

end Store

end Flock
