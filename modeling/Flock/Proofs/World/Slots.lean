import Flock.Proofs.World.Reachable

/-!
# Slots of a roster

A slot that has been given out belongs to one member or is free to be given out again, and
never both (`Roster.Apart`). Every change of a world keeps this, so no two agents share a slot
(`World.Reachable.apart`), and handles of agents in the order of slots are in one order only
(`Roster.Apart.pairwise_slot_lt`).
-/

namespace Flock

namespace Roster

variable {β : Type} {r next : Roster β} {a b : AgentId}

/-- The slots of the members, and those given back. -/
def slots (r : Roster β) : List Nat := r.ids.map (·.slot) ++ r.freed

/-- Each slot given out is held by one member or is free. -/
structure Apart (r : Roster β) : Prop where
  nodup : r.slots.Nodup
  lt_fresh : ∀ slot ∈ r.slots, slot < r.fresh

theorem apart_empty : (empty : Roster β).Apart := ⟨List.nodup_nil, by simp [slots, ids, empty]⟩

/-- Slots may pass from members to the free ones and back. -/
theorem Apart.of_slots_perm (h : r.Apart) (hslots : next.slots.Perm r.slots)
    (hfresh : next.fresh = r.fresh) : next.Apart := by
  refine ⟨hslots.nodup_iff.mpr h.nodup, fun slot hslot => ?_⟩
  rw [hfresh]
  exact h.lt_fresh slot (hslots.subset hslot)

theorem Apart.of_ids_eq (h : r.Apart) (hids : next.ids = r.ids) (hfreed : next.freed = r.freed)
    (hfresh : next.fresh = r.fresh) : next.Apart := by
  refine h.of_slots_perm (List.Perm.of_eq ?_) hfresh
  rw [slots, slots, hids, hfreed]

/-- A member that arrives gets the slot given back last, or else one never given out. -/
theorem Apart.insert (h : r.Apart) (member : β) : (r.insert member).Apart := by
  cases hfreed : r.freed with
  | cons slot freed =>
      refine h.of_slots_perm ?_ (by simp [Roster.insert, hfreed])
      have hnext : r.nextId.slot = slot := by rw [nextId, hfreed, List.headD_cons]
      have hrest : (r.insert member).freed = freed := by rw [Roster.insert, hfreed, List.tail_cons]
      rw [slots, slots, ids_insert, hrest, hfreed, List.map_append, List.map_singleton, hnext,
        List.append_assoc, List.singleton_append]
  | nil =>
      have hnext : r.nextId.slot = r.fresh := by rw [nextId, hfreed, List.headD_nil]
      have hrest : (r.insert member).freed = [] := by rw [Roster.insert, hfreed, List.tail_nil]
      have hslots : (r.insert member).slots = r.slots ++ [r.fresh] := by
        rw [slots, slots, ids_insert, hrest, hfreed, List.map_append, List.map_singleton, hnext,
          List.append_nil, List.append_nil]
      have hfresh : (r.insert member).fresh = r.fresh + 1 := by simp [Roster.insert, hfreed]
      constructor
      · rw [hslots, List.nodup_append_comm]
        exact List.nodup_cons.mpr ⟨fun hmem => Nat.lt_irrefl _ (h.lt_fresh _ hmem), h.nodup⟩
      · intro slot hslot
        rw [hslots, List.mem_append, List.mem_singleton] at hslot
        rw [hfresh]
        rcases hslot with hslot | rfl
        · exact Nat.lt_succ_of_lt (h.lt_fresh slot hslot)
        · exact Nat.lt_succ_self _

/-- The slot of a member that leaves becomes free. -/
theorem Apart.erase (h : r.Apart) (hsound : r.Sound) (id : AgentId) : (r.erase id).Apart := by
  cases hfound : r.find? id with
  | none => rwa [erase_of_find?_eq_none hfound]
  | some member =>
      have hid : id ∈ r.ids := isSome_find?_iff.mp (by rw [hfound]; rfl)
      have hfreed : (r.erase id).freed = id.slot :: r.freed := by rw [Roster.erase, hfound]
      have hfresh : (r.erase id).fresh = r.fresh := by rw [Roster.erase, hfound]
      have hkept : (r.erase id).ids = r.ids.erase id := by
        rw [ids_erase, hsound.nodup.erase_eq_filter]
        exact List.filter_congr fun other _ => Bool.eq_iff_iff.mpr (by simp)
      have hids : ((id :: (r.erase id).ids).map (·.slot)).Perm (r.ids.map (·.slot)) := by
        rw [hkept]
        exact (List.perm_cons_erase hid).symm.map _
      refine h.of_slots_perm ?_ hfresh
      rw [slots, slots, hfreed]
      exact List.perm_middle.trans (hids.append_right r.freed)

/-- No two members have the same slot. -/
theorem Apart.eq_of_slot_eq (h : r.Apart) (ha : a ∈ r.ids) (hb : b ∈ r.ids)
    (hslot : a.slot = b.slot) : a = b :=
  List.inj_on_of_nodup_map (List.nodup_append.mp h.nodup).1 ha hb hslot

/-- Different handles of members, once sorted, are in strict order of their slots. -/
theorem Apart.pairwise_slot_lt (h : r.Apart) {ids : List AgentId} (hids : ∀ id ∈ ids, id ∈ r.ids)
    (hnodup : ids.Nodup) : (AgentId.sort ids).Pairwise (·.slot < ·.slot) := by
  have hsorted : (AgentId.sort ids).Pairwise (·.before ·) :=
    List.pairwise_mergeSort AgentId.before_trans AgentId.before_total ids
  have hperm : (AgentId.sort ids).Perm ids := List.mergeSort_perm ids AgentId.before
  refine (hsorted.and (hperm.nodup_iff.mpr hnodup)).imp_of_mem ?_
  rintro a b ha hb ⟨hbefore, hne⟩
  have hslot : a.slot ≠ b.slot := fun heq =>
    hne (h.eq_of_slot_eq (hids a (hperm.subset ha)) (hids b (hperm.subset hb)) heq)
  simp only [AgentId.before, Bool.or_eq_true, Bool.and_eq_true, decide_eq_true_eq] at hbefore
  omega

end Roster

namespace World

variable {α : Type} [Scalar α] [Circular α] {w next : World α}

/-- Stepping all agents has nothing to do with slots. -/
theorem stepAgents_keeps_slots (w : World α) :
    w.stepAgents.1.agents.freed = w.agents.freed ∧
      w.stepAgents.1.agents.fresh = w.agents.fresh := by
  have hround := round_stepAgents w
  generalize w.stepAgents = result at hround
  cases hround with
  | unseen => exact ⟨rfl, rfl⟩
  | failed => exact ⟨rfl, rfl⟩
  | stepped _ hworld =>
      subst hworld
      exact ⟨rfl, rfl⟩

theorem Change.apart (hchange : Change w next) (h : w.agents.Apart) (hsound : w.agents.Sound) :
    next.agents.Apart := by
  cases hchange with
  | spawned hspawn =>
      obtain rfl := spawn_eq_ok hspawn
      exact h.insert _
  | spawnedAtRandom hspawn =>
      obtain ⟨p, words, rfl⟩ := spawnRandom_eq_ok hspawn
      exact h.insert _
  | removed id => exact h.erase hsound id
  | updated id change => exact h.of_ids_eq (Roster.ids_update _ id change) rfl rfl
  | installed program => exact h.of_ids_eq (Roster.ids_updateAll _ _) rfl rfl
  | bound hbind =>
      obtain rfl := bind_eq_ok hbind
      exact h.of_ids_eq (Roster.ids_update _ _ _) rfl rfl
  | regionAdded region => exact h
  | drew words => exact h
  | stepped =>
      obtain ⟨hfreed, hfresh⟩ := stepAgents_keeps_slots w
      exact h.of_ids_eq (stepAgents_keeps w).2.1 hfreed hfresh

/-- The agents of a reachable world have different slots. -/
theorem Reachable.apart (h : Reachable w) : w.agents.Apart := by
  induction h with
  | created h =>
      rw [(create_eq_ok h).2]
      exact Roster.apart_empty
  | changed hw hchange ih => exact hchange.apart ih hw.sound

end World

end Flock
