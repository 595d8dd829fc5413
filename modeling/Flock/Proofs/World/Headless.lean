import Flock.Proofs.Agent.Headless
import Flock.Proofs.Whole
import Flock.Proofs.World.Order

/-!
# Ticks that fail

A tick of a reachable world fails if and only if the step of one of its agents does, taken
by itself and with any random words against the view that the tick begins with. So neither
the words nor the order of stepping have a say in it. Together with what makes a step fail
this settles where faults come from, as far as samples can be had
(`World.fails_only_headless`).
-/

namespace Flock

variable {α : Type} [Scalar α]

/-- The handles of a roster are as sound in any order. -/
theorem Roster.Sound.of_perm {β : Type} {r : Roster β} (h : r.Sound) {entries : List (AgentId × β)}
    (hperm : r.entries.Perm entries) : ({ r with entries } : Roster β).Sound := by
  have hids : r.ids.Perm (entries.map (·.1)) := hperm.map _
  exact ⟨hids.nodup_iff.mp h.nodup, fun id hid => h.serial_lt id (hids.mem_iff.mpr hid)⟩

namespace Agent

/-- The action that the step of an agent comes to can have its samples. -/
def CanSample (inRegion : Point α → String → Bool) (agent : Agent α) : Prop :=
  ∀ node a, agent.due? inRegion = some (node, a) → a.isUnbounded = false

variable {inRegion : Point α → String → Bool} {agent : Agent α} {fault : Fault α}

theorem CanSample.fault_eq (h : agent.CanSample inRegion)
    (hfault : agent.fault? inRegion = some fault) : fault = .noHeading := by
  obtain ⟨execution, hexecution, hfault⟩ := Option.bind_eq_some_iff.mp hfault
  obtain ⟨⟨node, a⟩, hdue, hfault⟩ := Option.bind_eq_some_iff.mp hfault
  have hbounded := h node a (by rw [due?, hexecution, Option.bind_some]; exact hdue)
  exact ((Cursor.faultOf?_eq_some_iff hbounded).mp hfault).1

/-- Whether the step of an agent fails does not depend on the words. -/
theorem step_eq_error_iff [Circular α] {view : Surroundings α} (id : AgentId)
    (words : WordStream) :
    (agent.step id view words).2 = .error fault ↔ agent.fault? view.inRegion = some fault := by
  cases hfault : agent.fault? view.inRegion with
  | some other => rw [step_of_fault? hfault, Except.error.injEq, Option.some.injEq]
  | none =>
      obtain ⟨next, report, hstep, -⟩ := step_of_fault?_eq_none hfault id
      simp [hstep]

end Agent

namespace World

variable [Circular α] {w : World α}

/-- A round fails if one of the agents does, in whatever order they step. -/
theorem stepAgainst_fails_iff {view : Surroundings α} :
    (∃ fault, (w.stepAgainst view).2 = .error fault) ↔
      ∃ e ∈ w.agents.entries, ∃ fault, e.2.fault? view.inRegion = some fault := by
  simp only [stepAgainst_eq_error_iff]
  constructor
  · rintro ⟨fault, h⟩
    obtain ⟨e, he, hfault⟩ := List.exists_of_findSome?_eq_some h
    exact ⟨e, he, fault, hfault⟩
  · rintro ⟨e, he, fault, hfault⟩
    rw [← Option.ne_none_iff_exists', Ne, List.findSome?_eq_none_iff]
    intro h
    exact absurd (hfault.symm.trans (h e he)) (by simp)

/-- The same agents in another order, with other words, see what they saw. -/
theorem stepAgents_of_perm {v : View α} (hw : Reachable w) (hview : w.view = .ok v)
    {entries : List (AgentId × Agent α)} (hperm : w.agents.entries.Perm entries)
    (words : WordStream) :
    let next := { w with agents := { w.agents with entries }, words }
    next.stepAgents = next.stepAgainst v.surroundings := by
  intro next
  have hreordered : w.Reordered next := ⟨rfl, rfl, hperm⟩
  obtain ⟨other, hother, hshows⟩ := View.exists_shows (w := next) hw.isFinitePos_cellSize
  rw [stepAgents_of_view hother,
    hreordered.surroundings_eq (View.shows_of_view hview) hshows hw.sound (hw.sound.of_perm hperm)]

/-- A tick fails if one of the agents does by itself, with any words. -/
theorem stepAgents_fails_iff {v : View α} (hw : Reachable w) (hview : w.view = .ok v)
    {entries : List (AgentId × Agent α)} (hperm : w.agents.entries.Perm entries)
    (words others : WordStream) :
    let next := { w with agents := { w.agents with entries }, words }
    (∃ fault, next.stepAgents.2 = .error fault) ↔
      ∃ e ∈ w.agents.entries, ∃ fault, (e.2.step e.1 v.surroundings others).2 = .error fault := by
  intro next
  rw [stepAgents_of_perm hw hview hperm words, stepAgainst_fails_iff]
  simp only [Agent.step_eq_error_iff]
  exact exists_congr fun e => and_congr_left fun _ => hperm.mem_iff.symm

/-- The fault of a tick is the want of a heading, if all samples can be had. -/
theorem stepAgents_eq_noHeading {v : View α} (hw : Reachable w) (hview : w.view = .ok v)
    (hsample : ∀ e ∈ w.agents.entries, e.2.CanSample w.inRegion)
    {entries : List (AgentId × Agent α)} (hperm : w.agents.entries.Perm entries)
    (words : WordStream) {fault : Fault α}
    (h : ({ w with agents := { w.agents with entries }, words } : World α).stepAgents.2 =
      .error fault) : fault = .noHeading := by
  rw [stepAgents_of_perm hw hview hperm words, stepAgainst_eq_error_iff] at h
  obtain ⟨e, he, hfault⟩ := List.exists_of_findSome?_eq_some h
  have hregions : v.surroundings.inRegion = w.inRegion := (View.shows_of_view hview).inRegion_eq
  rw [hregions] at hfault
  exact (hsample e (hperm.mem_iff.mpr he)).fault_eq hfault

/-- When steps fail whose samples can be had. A step fails if it comes to a wait with ticks
left and the body has no heading, and only then; the fault is always that one, and body and
words are as they were. A body that has been given a heading lets no later step fail, of
whatever program. And a tick of a reachable world fails if one of its agents would fail by
itself against the view that the tick begins with, with whatever words and in whatever order
the agents step. -/
theorem fails_only_headless :
    (∀ (p : Program α) (c : Cursor) (id : AgentId) (view : Surroundings α) (b : Body α)
      (words : WordStream), c.CanSample p (view.inRegion b.position) →
        ((∃ fault, (c.step p id view b words).2 = .error fault) ↔
          c.IsHeadless p (view.inRegion b.position) b) ∧
        ∀ fault, (c.step p id view b words).2 = .error fault →
          fault = .noHeading ∧ (Stepping.step p id view).run ⟨c, b, words⟩ =
            .error .noHeading ⟨(c.step p id view b words).1, b, words⟩) ∧
    (∀ b b' : Body α, b.heading.isSome → b.Later b' →
      ∀ (p : Program α) (c : Cursor) (id : AgentId) (view : Surroundings α) (words : WordStream),
        c.CanSample p (view.inRegion b'.position) →
          ∃ turn, (c.step p id view b' words).2 = .ok turn) ∧
    ∀ w : World α, Reachable w → (∀ e ∈ w.agents.entries, e.2.CanSample w.inRegion) →
      ∃ v, w.view = .ok v ∧ ∀ entries words others, w.agents.entries.Perm entries →
        let next := { w with agents := { w.agents with entries }, words }
        ((∃ fault, next.stepAgents.2 = .error fault) ↔ ∃ e ∈ w.agents.entries,
          ∃ fault, (e.2.step e.1 v.surroundings others).2 = .error fault) ∧
        ∀ fault, next.stepAgents.2 = .error fault → fault = .noHeading := by
  refine ⟨?_, ?_, ?_⟩
  · intro p c id view b words hsample
    refine ⟨by simp [Cursor.step_eq_error_iff hsample], ?_⟩
    intro fault hfault
    obtain ⟨rfl, -⟩ := (Cursor.step_eq_error_iff hsample id words).mp hfault
    exact ⟨rfl, Cursor.run_step_of_error hsample hfault⟩
  · intro b b' hb hlater p c id view words hsample
    exact hlater.step_eq_ok hb hsample id words
  · intro w hw hsample
    obtain ⟨v, hview, -⟩ := View.exists_shows hw.isFinitePos_cellSize
    refine ⟨v, hview, ?_⟩
    intro entries words others hperm
    exact ⟨stepAgents_fails_iff hw hview hperm words others,
      fun fault h => stepAgents_eq_noHeading hw hview hsample hperm words h⟩

/-- An agent that is to go on for two ticks and has not been turned. -/
def idler : World Whole :=
  (World.add ⟨.default, .ofSeed 3, .empty, []⟩ (.atPoint .origin "")).updateAgent ⟨1, 0⟩
    (·.bind ⟨#[.action (.wait 2)], [0]⟩)

theorem reachable_idler : Reachable idler := by
  have hstart : Reachable (⟨.default, .ofSeed 3, .empty, []⟩ : World Whole) :=
    @Reachable.created Whole _ _ .default 3 _ rfl
  exact (hstart.changed (.spawned (p := .origin) rfl)).changed (.updated _ _ _)

/-- The agent fails by itself, with all else as it was, and so does the tick; once turned, and
then halted, it does not fail. -/
theorem fails_only_headless_idler :
    let p : Program Whole := ⟨#[.action (.wait 2)], [0]⟩
    let view := Surroundings.alone ([] : List (Region Whole))
    let b := Body.atPoint (⟨0, 0⟩ : Point Whole)
    (Stepping.step p ⟨1, 0⟩ view).run ⟨.start, b, .ofSeed 3⟩ =
      .error .noHeading ⟨.start, b, .ofSeed 3⟩ ∧
    (∃ turn, (Cursor.start.step p ⟨1, 0⟩ view (b.face ⟨5, 0⟩).halt (.ofSeed 3)).2 = .ok turn) ∧
    ∃ fault, idler.stepAgents.2 = .error fault := by
  intro p view b
  have hsample (b : Body Whole) : Cursor.start.CanSample p (view.inRegion b.position) := by
    intro node a h
    have hfound : (Cursor.start.found p (view.inRegion b.position)).action? =
      some (0, .wait 2) := rfl
    obtain ⟨-, rfl⟩ := Prod.mk.inj (Option.some.inj (hfound.symm.trans h))
    rfl
  have hdue : ∀ e ∈ idler.agents.entries, e.2.due? idler.inRegion = some (0, .wait 2) := by
    intro e he
    obtain rfl := List.mem_singleton.mp he
    rfl
  have hsamples : ∀ e ∈ idler.agents.entries, e.2.CanSample idler.inRegion := by
    intro e he node a h
    obtain ⟨-, rfl⟩ := Prod.mk.inj (Option.some.inj ((hdue e he).symm.trans h))
    rfl
  obtain ⟨hstep, hbody, hworld⟩ := fails_only_headless (α := Whole)
  refine ⟨?_, ?_, ?_⟩
  · exact ((hstep p .start ⟨1, 0⟩ view b (.ofSeed 3) (hsample b)).2 .noHeading rfl).2
  · exact hbody (b.face ⟨5, 0⟩) _ rfl (.operated .refl (.halted _)) p .start ⟨1, 0⟩ view _
      (hsample _)
  · obtain ⟨v, hview, hticks⟩ := hworld idler reachable_idler hsamples
    exact (hticks _ idler.words (.ofSeed 7) (.refl _)).1.mpr
      ⟨_, List.mem_singleton_self _, .noHeading, rfl⟩

end World

end Flock
