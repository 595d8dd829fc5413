import Flock.Proofs.World.Round
import Flock.Proofs.World.Stored

/-!
# The register of a world

A spawn gives out a handle, the removal of an agent takes one out of use, and no other
request has to do with handles (`World.turnover_perform`). So the handles in use are, after
any requests, those given out less those taken out of use, in the order in which they were
given out (`Roster.Books`). No handle is given out twice, and so one that is out of use stays
so (`World.agents_in_order_of_arrival`).

The same is true of a world that keeps its agents in slots and their order in a list of its
own, as it stands for one that does not (`StoredWorld.performAll_eq`).
-/

namespace Flock

namespace Roster

variable {β : Type} {r next : Roster β} {id : AgentId} {given taken : List AgentId}

/-- The handles in use are those given out less those taken out of use, in the order in
which they were given out. None was given out twice, and none is still to be given out. -/
structure Books (r : Roster β) (given taken : List AgentId) : Prop where
  ids_eq : r.ids = given.filter (· ∉ taken)
  nodup : given.Nodup
  serial_lt : ∀ id ∈ given, id.serial < r.serial
  subset : taken ⊆ given

/-- How the handles of a roster can change at a time, with the handle given out and the one
taken out of use: the next one is given out, one is taken out of use, or all stay. -/
inductive Turnover (r next : Roster β) : Option AgentId → Option AgentId → Prop where
  | arrived (hids : next.ids = r.ids ++ [r.nextId]) (hserial : next.serial = r.serial + 1) :
      Turnover r next (some r.nextId) none
  | left {id : AgentId} (hid : id ∈ r.ids) (hids : next.ids = r.ids.filter (· ≠ id))
      (hserial : next.serial = r.serial) : Turnover r next none (some id)
  | stayed (hids : next.ids = r.ids) (hserial : next.serial = r.serial) :
      Turnover r next none none

theorem books_empty : (empty : Roster β).Books [] [] :=
  ⟨rfl, List.nodup_nil, by simp, List.Subset.refl _⟩

theorem Books.not_mem_of_serial (h : r.Books given taken) : r.nextId ∉ given :=
  fun hmem => Nat.lt_irrefl _ (h.serial_lt _ hmem)

/-- The handles in use are different. -/
theorem Books.nodup_ids (h : r.Books given taken) : r.ids.Nodup := by
  rw [h.ids_eq]
  exact h.nodup.filter _

theorem Books.sound (h : r.Books given taken) : r.Sound := by
  refine ⟨h.nodup_ids, fun id hid => ?_⟩
  rw [h.ids_eq] at hid
  exact h.serial_lt id (List.mem_of_mem_filter hid)

/-- A member is found under the handles that were given out and not taken out of use. -/
theorem Books.isSome_find?_iff (h : r.Books given taken) :
    (r.find? id).isSome ↔ id ∈ given ∧ id ∉ taken := by
  rw [Roster.isSome_find?_iff, h.ids_eq, List.mem_filter, decide_eq_true_eq]

theorem Books.ids_eq_filter_find? (h : r.Books given taken) :
    r.ids = given.filter fun id => (r.find? id).isSome := by
  rw [h.ids_eq]
  refine List.filter_congr fun id hid => ?_
  rw [Bool.eq_iff_iff, decide_eq_true_eq, h.isSome_find?_iff]
  simp [hid]

theorem Books.arrived (h : r.Books given taken) (hids : next.ids = r.ids ++ [r.nextId])
    (hserial : next.serial = r.serial + 1) : next.Books (given ++ [r.nextId]) taken := by
  have hnew : r.nextId ∉ given := h.not_mem_of_serial
  have hkept : r.nextId ∉ taken := fun hmem => hnew (h.subset hmem)
  refine ⟨?_, ?_, ?_, fun id hid => List.mem_append_left _ (h.subset hid)⟩
  · rw [hids, h.ids_eq, List.filter_append, List.filter_singleton]
    simp [hkept]
  · rw [List.nodup_append_comm]
    exact List.nodup_cons.mpr ⟨hnew, h.nodup⟩
  · intro id hid
    rw [hserial]
    rcases List.mem_append.mp hid with hid | hid
    · exact Nat.lt_succ_of_lt (h.serial_lt id hid)
    · rw [List.mem_singleton.mp hid]
      exact Nat.lt_succ_self _

theorem Books.left (h : r.Books given taken) (hid : id ∈ r.ids)
    (hids : next.ids = r.ids.filter (· ≠ id)) (hserial : next.serial = r.serial) :
    next.Books given (taken ++ [id]) := by
  refine ⟨?_, h.nodup, fun other hother => ?_, ?_⟩
  · rw [hids, h.ids_eq, List.filter_filter]
    refine List.filter_congr fun other _ => ?_
    simp [and_comm]
  · rw [hserial]
    exact h.serial_lt other hother
  · refine List.append_subset.mpr ⟨h.subset, List.cons_subset.mpr ⟨?_, List.nil_subset _⟩⟩
    rw [h.ids_eq] at hid
    exact List.mem_of_mem_filter hid

theorem Turnover.books {come gone : Option AgentId} (hnext : r.Turnover next come gone)
    (h : r.Books given taken) : next.Books (given ++ come.toList) (taken ++ gone.toList) := by
  cases hnext with
  | arrived hids hserial => simpa using h.arrived hids hserial
  | left hid hids hserial => simpa using h.left hid hids hserial
  | stayed hids hserial =>
      have hsame : next.Books given taken :=
        ⟨hids.trans h.ids_eq, h.nodup, fun id hid => hserial ▸ h.serial_lt id hid, h.subset⟩
      simpa using hsame

theorem turnover_insert (r : Roster β) (member : β) :
    r.Turnover (r.insert member) (some r.nextId) none :=
  .arrived (ids_insert r member) rfl

theorem turnover_erase (h : (r.find? id).isSome) : r.Turnover (r.erase id) none (some id) :=
  .left (isSome_find?_iff.mp h) (ids_erase r id) (serial_erase r id)

end Roster

namespace World

variable {α : Type} [Scalar α] [Circular α]

variable {w : World α}

/-- What a request has to do with handles. -/
theorem turnover_perform (w : World α) (request : Request α) :
    w.agents.Turnover (w.perform request).1.agents (w.perform request).2.arrived?
      (w.perform request).2.left? := by
  cases request with
  | spawn p label =>
      simp only [perform]
      split
      · next h =>
        obtain rfl := spawn_eq_ok h
        exact Roster.turnover_insert w.agents _
      · exact .stayed rfl rfl
  | spawnRandom =>
      simp only [perform]
      split
      · next h =>
        obtain ⟨p, words, rfl⟩ := spawnRandom_eq_ok h
        exact Roster.turnover_insert w.agents _
      · exact .stayed rfl rfl
  | remove id =>
      simp only [perform]
      split
      · next h => exact Roster.turnover_erase (Option.isSome_of_eq_some h)
      · next h =>
        exact .stayed (congrArg Roster.ids (Roster.erase_of_find?_eq_none h))
          (Roster.serial_erase _ id)
  | update id change => exact .stayed (Roster.ids_update _ id change) rfl
  | install program => exact .stayed (Roster.ids_updateAll _ _) rfl
  | bind id program =>
      simp only [perform]
      split
      · next h =>
        obtain rfl := bind_eq_ok h
        exact .stayed (Roster.ids_update _ _ _) rfl
      · exact .stayed rfl rfl
  | addRegion region => exact .stayed rfl rfl
  | draw words => exact .stayed rfl rfl
  | step =>
      obtain ⟨-, hids, hserial⟩ := stepAgents_keeps w
      simp only [perform]
      split
      · next h =>
        rw [h] at hids hserial
        exact .stayed hids hserial
      · next h =>
        rw [h] at hids hserial
        exact .stayed hids hserial

/-- The handles that were given out, in order. -/
def arrivals (replies : List (Reply α)) : List AgentId := replies.filterMap Reply.arrived?

/-- The handles that were taken out of use, in order. -/
def departures (replies : List (Reply α)) : List AgentId := replies.filterMap Reply.left?

omit [Scalar α] [Circular α] in
theorem arrivals_cons (reply : Reply α) (replies : List (Reply α)) :
    arrivals (reply :: replies) = reply.arrived?.toList ++ arrivals replies := by
  cases h : reply.arrived? <;> simp [arrivals, h]

omit [Scalar α] [Circular α] in
theorem departures_cons (reply : Reply α) (replies : List (Reply α)) :
    departures (reply :: replies) = reply.left?.toList ++ departures replies := by
  cases h : reply.left? <;> simp [departures, h]

/-- The books are kept by all requests together. -/
theorem books_performAll {given taken : List AgentId} (h : w.agents.Books given taken)
    (requests : List (Request α)) :
    (w.performAll requests).1.agents.Books (given ++ arrivals (w.performAll requests).2)
      (taken ++ departures (w.performAll requests).2) := by
  -- the handles given out and taken out of use before are arbitrary
  induction requests generalizing w given taken with
  | nil => simpa [performAll, arrivals, departures] using h
  | cons request rest ih =>
      have hrest := ih ((turnover_perform w request).books h)
      rw [performAll]
      simp only [arrivals_cons, departures_cons]
      rwa [← List.append_assoc, ← List.append_assoc]

/-- A tick that succeeds steps every agent once, and there are no other agents after it. -/
theorem stepAgents_steps_once {activity : Activity} (hsound : w.agents.Sound)
    (h : w.stepAgents.2 = .ok activity) :
    ∃ v, w.view = .ok v ∧ w.stepAgents.1.agents.ids = w.agents.ids ∧
      ∀ id agent, w.agent? id = some agent → ∃ words,
        w.stepAgents.1.agent? id = some (agent.step id v.surroundings words).1 := by
  obtain ⟨v, hview, -, hnext, -⟩ := stepAgents_eq_ok h w.words
  obtain ⟨-, hids, hserial⟩ := stepAgents_keeps w
  refine ⟨v, hview, hids, fun id agent hagent => ?_⟩
  have hafter : w.stepAgents.1.agents.Sound := (Roster.follows_of_ids_eq hids hserial).sound hsound
  obtain ⟨i, hi⟩ := List.getElem?_of_mem ((Roster.find?_eq_some_iff hsound).mp hagent)
  have hentries : w.stepAgents.1.agents.entries =
      Staging.copies v.surroundings w.agents.entries w.words := by rw [hnext]
  have hcopy := Staging.getElem?_copies v.surroundings w.agents.entries w.words i
  rw [hi, Option.map_some, ← hentries] at hcopy
  exact ⟨_, (Roster.find?_eq_some_iff hafter).mpr (List.mem_of_getElem? hcopy)⟩

/-- Agents are neither lost nor doubled nor put in another order. After any requests to a new
world no handle has been given out twice, and an agent is found under those that have not
been taken out of use since; these are the handles in use, in the order in which they were
given out. So one that has been taken out of use is never found again. What is refused
changes nothing, nor does the removal of an agent that is not there, and a tick that succeeds
steps every agent once. All this holds as well where agents are kept in slots and their order
in a list of its own: requests have the same answers there, and the handles in the list are
those in use, as are those that are found. -/
theorem agents_in_order_of_arrival {settings : Settings α} {entropy : UInt64} {first : World α}
    (h : create settings entropy = .ok first) (requests : List (Request α)) :
    let w := (first.performAll requests).1
    let given := arrivals (first.performAll requests).2
    let taken := departures (first.performAll requests).2
    given.Nodup ∧
    (∀ id, (w.agent? id).isSome ↔ id ∈ given ∧ id ∉ taken) ∧
    (w.agents.ids.Nodup ∧ w.agents.ids = given.filter fun id => (w.agent? id).isSome) ∧
    w.agents.size = w.agents.ids.length ∧
    (∀ id ∈ taken, w.agent? id = none) ∧
    (∀ request fault, (w.perform request).2 = .refused fault → (w.perform request).1 = w) ∧
    (∀ id, w.agent? id = none → w.perform (.remove id) = (w, .done)) ∧
    (∀ activity, w.stepAgents.2 = .ok activity →
      ∃ v, w.view = .ok v ∧ w.stepAgents.1.agents.ids = w.agents.ids ∧
        ∀ id agent, w.agent? id = some agent → ∃ words,
          w.stepAgents.1.agent? id = some (agent.step id v.surroundings words).1) ∧
    let stored := (StoredWorld.new first.settings first.words).performAll requests
    stored.2 = (first.performAll requests).2 ∧ stored.1.world = w ∧
      stored.1.agents.order = w.agents.ids ∧
      ∀ id, stored.1.agents.get? id = w.agent? id := by
  intro w given taken
  have hempty : first.agents.Books [] [] := by
    rw [(create_eq_ok h).2]
    exact Roster.books_empty
  have hbooks : w.agents.Books given taken := books_performAll hempty requests
  refine ⟨hbooks.nodup, fun id => hbooks.isSome_find?_iff,
    ⟨hbooks.nodup_ids, hbooks.ids_eq_filter_find?⟩, Roster.size_eq_length_ids _, ?_,
    fun request fault => perform_of_refused, ?_,
    fun activity => stepAgents_steps_once hbooks.sound, ?_⟩
  · intro id hid
    rw [← Option.not_isSome_iff_eq_none]
    exact fun hfound => (hbooks.isSome_find?_iff.mp hfound).2 hid
  · intro id hid
    simp only [perform, hid, remove]
    rw [Roster.erase_of_find?_eq_none hid]
  · intro stored
    obtain ⟨hsame, hsynced⟩ :=
      StoredWorld.performAll_eq (s := .new first.settings first.words) Store.synced_empty requests
    rw [StoredWorld.world_new h] at hsame
    have hworld : stored.1.world = w := congrArg Prod.fst hsame.symm
    refine ⟨congrArg Prod.snd hsame.symm, hworld, ?_, fun id => ?_⟩
    · rw [← hsynced.ids_eq, ← hworld]
      rfl
    · rw [← hsynced.find?_eq, ← hworld]
      rfl

/-- Two agents are placed, and the first is removed. The next one gets its slot, under a
handle of its own; the old handle is asked for once more, and a place that is not finite is
refused. -/
theorem agents_in_order_of_arrival_slot_reused :
    let first : World Float := ⟨.default, (Settings.default : Settings Float).words 3, .empty, []⟩
    let requests : List (Request Float) :=
      [.spawn ⟨0, 0⟩ "", .spawn ⟨1, 0⟩ "", .remove ⟨1, 0⟩, .spawn ⟨2, 0⟩ "x", .remove ⟨1, 0⟩,
        .spawn ⟨1 / 0, 0⟩ ""]
    create .default 3 = .ok first ∧
    arrivals (first.performAll requests).2 = [⟨1, 0⟩, ⟨2, 1⟩, ⟨1, 2⟩] ∧
    (first.performAll requests).1.agents.ids = [⟨2, 1⟩, ⟨1, 2⟩] ∧
    (first.performAll requests).1.agent? ⟨1, 0⟩ = none ∧
    ((StoredWorld.new first.settings first.words).performAll requests).1.agents.order =
      [⟨2, 1⟩, ⟨1, 2⟩] := by
  intro first requests
  have hcreate : create .default 3 = .ok first := rfl
  have hgiven : arrivals (first.performAll requests).2 = [⟨1, 0⟩, ⟨2, 1⟩, ⟨1, 2⟩] := by
    decide +kernel
  have htaken : departures (first.performAll requests).2 = [⟨1, 0⟩] := by decide +kernel
  obtain ⟨-, hfound, ⟨-, hids⟩, -, hgone, -, -, -, -, -, horder, -⟩ :=
    agents_in_order_of_arrival hcreate requests
  simp only [hgiven, htaken] at hfound hids hgone
  have hleft : (first.performAll requests).1.agents.ids = [⟨2, 1⟩, ⟨1, 2⟩] := by
    rw [hids]
    simp only [List.filter_cons, List.filter_nil, hfound]
    decide
  exact ⟨hcreate, hgiven, hleft, hgone _ (List.mem_singleton_self _), horder.trans hleft⟩

end World

end Flock
