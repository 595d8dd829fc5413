import Mathlib.Logic.Relation
import Flock.Proofs.World.Fault
import Flock.Proofs.World.Roster

/-!
# Reachable worlds

`World.Change` is everything that can be done to a world: agents are placed and removed,
bodies and programs changed, regions added, random words drawn, and all agents stepped
once, whether or not that succeeds. A world is reachable if it comes from a newly created
one by such changes.

The settings never change, so the cell size of a reachable world is a positive number
(`Reachable.isFinitePos_cellSize`). What a change does to the handles is said once
(`Change.follows`); from it come the two invariants of the roster, along every history
(`Reachable.sound`, `Later.retired`).
-/

namespace Flock

variable {α : Type} [Scalar α] [Circular α]

omit [Circular α] in
theorem Settings.check_eq_ok_iff {s : Settings α} :
    s.check = .ok () ↔ s.historyCapacity ≠ 0 ∧ Scalar.isFinitePos s.cellSize ∧
      Scalar.isFiniteNonneg s.spawnExtent := by
  unfold check
  by_cases hcapacity : s.historyCapacity = 0
  · simp [hcapacity]
  · cases hcell : Scalar.isFinitePos s.cellSize <;>
      cases hextent : Scalar.isFiniteNonneg s.spawnExtent <;>
      simp [hcapacity]

namespace Staging

variable {view : Surroundings α} {s next : Staging α}

theorem ids_stepOne {id : AgentId} {agent : Agent α}
    (h : s.stepOne view id agent = (next, none)) :
    next.stepped.map (·.1) = id :: s.stepped.map (·.1) := by
  unfold stepOne at h
  split at h
  · exact absurd (congrArg Prod.snd h) (by simp)
  · obtain rfl := congrArg Prod.fst h
    rfl

/-- A round in which no agent fails has stepped a copy of every agent. -/
theorem ids_stepAll {entries : List (AgentId × Agent α)}
    (h : s.stepAll view entries = (next, none)) :
    next.stepped.map (·.1) = (entries.map (·.1)).reverse ++ s.stepped.map (·.1) := by
  -- copies are put in front of those that have stepped before, whatever these are
  induction entries generalizing s with
  | nil =>
      obtain rfl := congrArg Prod.fst h
      rfl
  | cons e rest ih =>
      simp only [stepAll] at h
      split at h
      · exact absurd (congrArg Prod.snd h) (by simp)
      · next middle hstep =>
        rw [ih h, ids_stepOne hstep]
        simp

end Staging

namespace World

variable {w next : World α}

/-- One change to a world. -/
inductive Change : World α → World α → Prop where
  | spawned {w next : World α} {p : Point α} {label : String} (h : w.spawn p label = .ok next) :
      Change w next
  | spawnedAtRandom {w next : World α} (h : w.spawnRandom = .ok next) : Change w next
  | removed (w : World α) (id : AgentId) : Change w (w.remove id)
  | updated (w : World α) (id : AgentId) (change : Agent α → Agent α) :
      Change w (w.updateAgent id change)
  | installed (w : World α) (program : Program α) : Change w (w.install program)
  | bound {w next : World α} {id : AgentId} {program : Program α}
      (h : w.bind id program = .ok next) : Change w next
  | regionAdded (w : World α) (region : Region α) : Change w (w.addRegion region)
  | drew (w : World α) (words : WordStream) : Change w { w with words := words }
  | stepped (w : World α) : Change w w.stepAgents.1

/-- The worlds that come from a newly created one by any changes. -/
inductive Reachable : World α → Prop where
  | created {settings : Settings α} {entropy : UInt64} {w : World α}
      (h : create settings entropy = .ok w) : Reachable w
  | changed {w next : World α} (h : Reachable w) (hchange : Change w next) : Reachable next

/-- A world comes from another one by any changes. -/
def Later : World α → World α → Prop := Relation.ReflTransGen Change

omit [Circular α] in
theorem spawn_eq_ok {p : Point α} {label : String} (h : w.spawn p label = .ok next) :
    next = w.add (.atPoint p label) := by
  obtain ⟨-, -, h⟩ := bind_eq_ok_iff.mp h
  exact (Except.ok.inj h).symm

omit [Circular α] in
theorem spawnRandom_eq_ok (h : w.spawnRandom = .ok next) :
    ∃ p words, next = { w with words := words }.add (.atPoint p "") := by
  obtain ⟨⟨p, words⟩, -, h⟩ := bind_eq_ok_iff.mp h
  exact ⟨p, words, (Except.ok.inj h).symm⟩

omit [Scalar α] [Circular α] in
theorem bind_eq_ok {id : AgentId} {program : Program α} (h : w.bind id program = .ok next) :
    next = w.updateAgent id (·.bind program) := by
  unfold World.bind at h
  split at h
  · exact absurd h (by simp)
  · exact (Except.ok.inj h).symm

/-- Stepping all agents keeps the settings and the handles. -/
theorem stepAgents_keeps (w : World α) :
    w.stepAgents.1.settings = w.settings ∧ w.stepAgents.1.agents.ids = w.agents.ids ∧
      w.stepAgents.1.agents.serial = w.agents.serial := by
  have hround := round_stepAgents w
  generalize w.stepAgents = result at hround
  cases hround with
  | unseen => exact ⟨rfl, rfl, rfl⟩
  | failed => exact ⟨rfl, rfl, rfl⟩
  | stepped _ hworld hround =>
      have hids := Staging.ids_stepAll hround
      subst hworld
      refine ⟨rfl, ?_, rfl⟩
      simp [Staging.commit, Roster.ids, hids, Staging.start]

/-- What a change does to the settings and the handles of a world. -/
theorem Change.follows (h : Change w next) :
    next.settings = w.settings ∧ w.agents.Follows next.agents := by
  cases h with
  | spawned h =>
      obtain rfl := spawn_eq_ok h
      exact ⟨rfl, Roster.follows_insert _ _⟩
  | spawnedAtRandom h =>
      obtain ⟨p, words, rfl⟩ := spawnRandom_eq_ok h
      exact ⟨rfl, Roster.follows_insert _ _⟩
  | removed id => exact ⟨rfl, Roster.follows_erase _ id⟩
  | updated id change =>
      exact ⟨rfl, Roster.follows_of_ids_eq (Roster.ids_update _ id change) rfl⟩
  | installed program =>
      exact ⟨rfl, Roster.follows_of_ids_eq (Roster.ids_updateAll _ _) rfl⟩
  | bound h =>
      obtain rfl := bind_eq_ok h
      exact ⟨rfl, Roster.follows_of_ids_eq (Roster.ids_update _ _ _) rfl⟩
  | regionAdded region => exact ⟨rfl, Roster.follows_of_ids_eq rfl rfl⟩
  | drew words => exact ⟨rfl, Roster.follows_of_ids_eq rfl rfl⟩
  | stepped =>
      obtain ⟨hsettings, hids, hserial⟩ := stepAgents_keeps w
      exact ⟨hsettings, Roster.follows_of_ids_eq hids hserial⟩

omit [Circular α] in
theorem create_eq_ok {settings : Settings α} {entropy : UInt64}
    (h : create settings entropy = .ok w) : w.settings.check = .ok () ∧ w.agents = .empty := by
  obtain ⟨⟨⟩, hcheck, h⟩ := bind_eq_ok_iff.mp h
  obtain rfl := Except.ok.inj h
  exact ⟨hcheck, rfl⟩

namespace Reachable

/-- The settings of a world are those that were checked when it was created. -/
theorem check_settings (h : Reachable w) : w.settings.check = .ok () := by
  induction h with
  | created h => exact (create_eq_ok h).1
  | changed _ hchange ih =>
      rw [hchange.follows.1]
      exact ih

theorem isFinitePos_cellSize (h : Reachable w) : Scalar.isFinitePos w.settings.cellSize :=
  (Settings.check_eq_ok_iff.mp h.check_settings).2.1

theorem isFiniteNonneg_spawnExtent (h : Reachable w) :
    Scalar.isFiniteNonneg w.settings.spawnExtent :=
  (Settings.check_eq_ok_iff.mp h.check_settings).2.2

theorem sound (h : Reachable w) : w.agents.Sound := by
  induction h with
  | created h =>
      rw [(create_eq_ok h).2]
      exact Roster.sound_empty
  | changed _ hchange ih => exact hchange.follows.2.sound ih

end Reachable

theorem Reachable.of_later (h : Reachable w) (hlater : Later w next) : Reachable next := by
  induction hlater with
  | refl => exact h
  | tail _ hchange ih => exact ih.changed hchange

/-- A handle that is retired stays so. -/
theorem Later.retired {id : AgentId} (hlater : Later w next) (h : w.agents.Retired id) :
    next.agents.Retired id := by
  induction hlater with
  | refl => exact h
  | tail _ hchange ih => exact hchange.follows.2.retired ih

/-- An agent that is removed is never found again under its handle. -/
theorem Reachable.agent?_of_later_remove {id : AgentId} (h : Reachable w)
    (hid : (w.agent? id).isSome) (hlater : Later (w.remove id) next) : next.agent? id = none := by
  have hretired : (w.remove id).agents.Retired id :=
    h.sound.retired_erase (Roster.isSome_find?_iff.mp hid)
  exact Roster.find?_eq_none_iff.mpr (hlater.retired hretired).not_mem

/-- Agents that broadcast "T" in places along the first axis. -/
def inRow (places : List α) : World α :=
  places.foldl (fun w x => w.add (.atPoint ⟨x, Scalar.zero⟩ "T")) ⟨.default, .ofSeed 3, .empty, []⟩

theorem reachable_inRow {places : List α}
    (hsettings : (Settings.default : Settings α).check = .ok ())
    (hplaces : ∀ x ∈ places, (⟨x, Scalar.zero⟩ : Point α).check = .ok ()) :
    Reachable (inRow places) := by
  have hcreate : create (.default : Settings α) 3 = .ok ⟨.default, .ofSeed 3, .empty, []⟩ :=
    bind_eq_ok_iff.mpr ⟨(), hsettings, rfl⟩
  have hstart := Reachable.created hcreate
  unfold inRow
  generalize (⟨.default, .ofSeed 3, .empty, []⟩ : World α) = w at hstart
  induction places generalizing w with
  | nil => exact hstart
  | cons x places ih =>
      have hspawn : w.spawn ⟨x, Scalar.zero⟩ "T" = .ok (w.add (.atPoint ⟨x, Scalar.zero⟩ "T")) :=
        bind_eq_ok_iff.mpr ⟨(), hplaces x List.mem_cons_self, rfl⟩
      exact ih (fun y hy => hplaces y (List.mem_cons_of_mem x hy)) _
        (hstart.changed (.spawned hspawn))

end World

end Flock
