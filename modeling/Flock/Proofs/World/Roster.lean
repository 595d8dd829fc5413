import Mathlib.Data.List.Nodup
import Flock.World.Roster

/-!
# Handles of a roster

The members of a roster have different handles, and the serial number of each of them
has been given out before (`Roster.Sound`). A handle that has been given out and is no
longer in use (`Roster.Retired`) is not the next one to be given out, whatever slot that
one has. Both are kept by everything that adds a member or lets members leave.
-/

namespace Flock

namespace Roster

variable {β : Type} {r next : Roster β} {id : AgentId} {member : β}

/-- The handles in use are different, and none of them is still to be given out. -/
structure Sound (r : Roster β) : Prop where
  nodup : r.ids.Nodup
  serial_lt : ∀ id ∈ r.ids, id.serial < r.serial

/-- A handle that has been in use and is so no longer. -/
structure Retired (r : Roster β) (id : AgentId) : Prop where
  not_mem : id ∉ r.ids
  serial_lt : id.serial < r.serial

/-- How the handles of a roster can change: the next one is given out, or any number of
them, also none, is taken out of use. -/
inductive Follows (r next : Roster β) : Prop where
  | arrived (hids : next.ids = r.ids ++ [r.nextId]) (hserial : next.serial = r.serial + 1)
  | left (hids : next.ids.Sublist r.ids) (hserial : next.serial = r.serial)

theorem sound_empty : (empty : Roster β).Sound := ⟨List.nodup_nil, by simp [ids, empty]⟩

theorem Follows.sound (hnext : r.Follows next) (h : r.Sound) : next.Sound := by
  cases hnext with
  | arrived hids hserial =>
      -- the slot of the next handle may have been used before, its serial number has not
      have hfresh : r.nextId ∉ r.ids := fun hmem => Nat.lt_irrefl _ (h.serial_lt _ hmem)
      constructor
      · rw [hids, List.nodup_append_comm]
        exact List.nodup_cons.mpr ⟨hfresh, h.nodup⟩
      · intro id hid
        rw [hids, List.mem_append, List.mem_singleton] at hid
        rw [hserial]
        rcases hid with hid | rfl
        · exact Nat.lt_succ_of_lt (h.serial_lt id hid)
        · exact Nat.lt_succ_self _
  | left hids hserial =>
      refine ⟨h.nodup.sublist hids, fun id hid => ?_⟩
      rw [hserial]
      exact h.serial_lt id (hids.subset hid)

theorem Follows.retired (hnext : r.Follows next) (h : r.Retired id) : next.Retired id := by
  cases hnext with
  | arrived hids hserial =>
      constructor
      · rw [hids, List.mem_append, List.mem_singleton, not_or]
        refine ⟨h.not_mem, ?_⟩
        rintro rfl
        exact Nat.lt_irrefl _ h.serial_lt
      · rw [hserial]
        exact Nat.lt_succ_of_lt h.serial_lt
  | left hids hserial =>
      refine ⟨fun hid => h.not_mem (hids.subset hid), ?_⟩
      rw [hserial]
      exact h.serial_lt

/-! Members and their handles. -/

theorem find?_eq_some_iff (h : r.Sound) :
    r.find? id = some member ↔ (id, member) ∈ r.entries := by
  rw [find?, Option.map_eq_some_iff]
  constructor
  · rintro ⟨e, he, rfl⟩
    have hid : e.1 = id := by simpa using List.find?_some he
    subst hid
    exact List.mem_of_find?_eq_some he
  · intro hmem
    cases hfound : r.entries.find? (·.1 = id) with
    | none => exact absurd hmem fun hmem => by simpa using List.find?_eq_none.mp hfound _ hmem
    | some e =>
        have hid : e.1 = id := by simpa using List.find?_some hfound
        have heq := List.inj_on_of_nodup_map h.nodup (List.mem_of_find?_eq_some hfound) hmem hid
        exact ⟨e, rfl, by rw [heq]⟩

theorem isSome_find?_iff : (r.find? id).isSome ↔ id ∈ r.ids := by
  simp [find?, ids]

theorem find?_eq_none_iff : r.find? id = none ↔ id ∉ r.ids := by
  rw [← isSome_find?_iff, Option.isSome_iff_ne_none, not_not]

theorem erase_of_find?_eq_none (h : r.find? id = none) : r.erase id = r := by
  rw [erase, h]

theorem ids_erase (r : Roster β) (id : AgentId) : (r.erase id).ids = r.ids.filter (· ≠ id) := by
  unfold erase
  split
  · next hnone =>
    have hnot := find?_eq_none_iff.mp hnone
    refine (List.filter_eq_self.mpr fun other hother => ?_).symm
    rw [decide_eq_true_eq]
    rintro rfl
    exact hnot hother
  · rw [ids, ids, List.filter_map]
    rfl

theorem serial_erase (r : Roster β) (id : AgentId) : (r.erase id).serial = r.serial := by
  unfold erase
  split <;> rfl

theorem follows_insert (r : Roster β) (member : β) : r.Follows (r.insert member) :=
  .arrived (ids_insert r member) rfl

theorem follows_erase (r : Roster β) (id : AgentId) : r.Follows (r.erase id) :=
  .left (by rw [ids_erase]; exact List.filter_sublist) (serial_erase r id)

theorem follows_of_ids_eq (hids : next.ids = r.ids) (hserial : next.serial = r.serial) :
    r.Follows next := .left (by rw [hids]) hserial

/-- The handle of a member that leaves is retired. -/
theorem Sound.retired_erase (h : r.Sound) (hid : id ∈ r.ids) : (r.erase id).Retired id :=
  ⟨by simp [ids_erase], by rw [serial_erase]; exact h.serial_lt id hid⟩

end Roster

end Flock
