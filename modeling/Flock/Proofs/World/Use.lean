import Flock.Proofs.Agent.Change
import Flock.Proofs.World.Unbounded

/-!
# Worlds in use

A world is used through operations that can be refused: agents are placed, bodies operated
on, accepted programs bound, and all agents stepped (`World.Use`). Whatever such a history
does to a body is made of the changes of bodies, so what is true of every body that is
placed and is kept by each of these changes is true of all bodies at all times
(`World.Used.forall_body`). The speeds that are given to bodies and programs are restricted
to those allowed, which may be all that are accepted.
-/

namespace Flock

namespace Roster

variable {β : Type} {r : Roster β} {Q : β → Prop} {id : AgentId} {member : β}

/-- A property of all members. -/
def Forall (Q : β → Prop) (r : Roster β) : Prop := ∀ e ∈ r.entries, Q e.2

theorem Forall.find? (h : r.Forall Q) (hfind : r.find? id = some member) : Q member := by
  obtain ⟨e, he, rfl⟩ := Option.map_eq_some_iff.mp hfind
  exact h e (List.mem_of_find?_eq_some he)

theorem Forall.insert (h : r.Forall Q) (hmember : Q member) : (r.insert member).Forall Q := by
  intro e he
  rcases List.mem_append.mp he with hold | hnew
  · exact h e hold
  · rw [List.mem_singleton.mp hnew]
    exact hmember

theorem Forall.erase (h : r.Forall Q) (id : AgentId) : (r.erase id).Forall Q := by
  unfold Roster.erase
  split
  · exact h
  · exact fun e he => h e (List.mem_of_mem_filter he)

theorem Forall.update {change : β → β} (h : r.Forall Q)
    (hchange : ∀ member, Q member → Q (change member)) (id : AgentId) :
    (r.update id change).Forall Q := by
  intro e he
  obtain ⟨old, hold, rfl⟩ := List.mem_map.mp he
  split
  · exact hchange old.2 (h old hold)
  · exact h old hold

theorem Forall.updateAll {change : β → β} (h : r.Forall Q)
    (hchange : ∀ member, Q member → Q (change member)) : (r.updateAll change).Forall Q := by
  intro e he
  obtain ⟨old, hold, rfl⟩ := List.mem_map.mp he
  exact hchange old.2 (h old hold)

end Roster

variable {α : Type}

/-- The actions of a program take up none but allowed speeds. -/
def Program.Paced (allowed : α → Prop) (p : Program α) : Prop :=
  ∀ node a, p.node? node = some (.action a) → ∀ v ∈ a.speed?, allowed v

namespace Agent

variable {P : Body α → Prop} {allowed : α → Prop} {agent : Agent α}

/-- A property of the body of an agent, whose program takes up none but allowed speeds. -/
structure Within (P : Body α → Prop) (allowed : α → Prop) (agent : Agent α) : Prop where
  body : P agent.body
  paced : ∀ p, agent.execution.map (·.program) = some p → p.Paced allowed

theorem Within.withBody {b : Body α} (h : agent.Within P allowed) (hb : P b) :
    ({ agent with body := b } : Agent α).Within P allowed := ⟨hb, h.paced⟩

theorem Within.bind {p : Program α} (h : agent.Within P allowed) (hp : p.Paced allowed) :
    (agent.bind p).Within P allowed := by
  refine ⟨h.body, ?_⟩
  intro p' hp'
  obtain rfl := Option.some.inj hp'
  exact hp

theorem Within.unbind (h : agent.Within P allowed) :
    ({ agent with execution := none } : Agent α).Within P allowed := ⟨h.body, by simp⟩

variable [Scalar α]

theorem within_atPoint {p : Point α} {label : String} (h : P ((Body.atPoint p).signal label)) :
    (atPoint p label).Within P allowed := ⟨h, by simp [atPoint]⟩

variable [Circular α]

/-- The step of an agent is made of changes of its body, whether or not it fails. -/
theorem changes_step (id : AgentId) (view : Surroundings α) (words : WordStream)
    (hpaced : ∀ p, agent.execution.map (·.program) = some p → p.Paced allowed) :
    Body.Changes allowed agent.body (agent.step id view words).1.body := by
  cases hexecution : agent.execution with
  | none =>
      simp only [step, hexecution]
      exact .refl
  | some execution =>
      simp only [step, hexecution]
      split
      · exact .refl
      · next hstep =>
        refine Cursor.changes_step (congrArg Prod.snd hstep) (hpaced execution.program ?_)
        rw [hexecution, Option.map_some]

theorem Within.step (hP : ∀ b b', Body.Change allowed b b' → P b → P b')
    (h : agent.Within P allowed) (id : AgentId) (view : Surroundings α) (words : WordStream) :
    (agent.step id view words).1.Within P allowed := by
  refine ⟨(changes_step id view words h.paced).keep hP h.body, ?_⟩
  rw [program_step]
  exact h.paced

end Agent

namespace World

variable [Scalar α] [Circular α] {allowed : α → Prop} {w next : World α}

/-- An operation on a world that is not refused, the speeds that it leaves bodies with and
those of the programs that it binds being among those allowed. -/
inductive Use (allowed : α → Prop) : World α → World α → Prop where
  | spawned {w next : World α} {p : Point α} {label : String} (h : w.spawn p label = .ok next) :
      Use allowed w next
  | spawnedAtRandom {w next : World α} (h : w.spawnRandom = .ok next) : Use allowed w next
  | removed (w : World α) (id : AgentId) : Use allowed w (w.remove id)
  | operated {w : World α} {id : AgentId} {agent : Agent α} {b : Body α}
      (hagent : w.agent? id = some agent) (h : agent.body.Operation b) (hspeed : allowed b.speed) :
      Use allowed w (w.updateAgent id fun a => { a with body := b })
  | unbound (w : World α) (id : AgentId) :
      Use allowed w (w.updateAgent id fun a => { a with execution := none })
  | installed (w : World α) {events : List (Event α)} {p : Program α}
      (hp : Program.ofEvents events = .ok p) (hpaced : p.Paced allowed) :
      Use allowed w (w.install p)
  | bound {w next : World α} {id : AgentId} {events : List (Event α)} {p : Program α}
      (hp : Program.ofEvents events = .ok p) (hpaced : p.Paced allowed)
      (h : w.bind id p = .ok next) : Use allowed w next
  | regionAdded (w : World α) (region : Region α) : Use allowed w (w.addRegion region)
  | drew (w : World α) (words : WordStream) : Use allowed w { w with words := words }
  | stepped (w : World α) : Use allowed w w.stepAgents.1

/-- The worlds that come from a newly created one by operations that are not refused. -/
inductive Used (allowed : α → Prop) : World α → Prop where
  | created {settings : Settings α} {entropy : UInt64} {w : World α}
      (h : create settings entropy = .ok w) : Used allowed w
  | used {w next : World α} (h : Used allowed w) (huse : Use allowed w next) : Used allowed next

theorem Use.change (h : Use allowed w next) : Change w next := by
  cases h with
  | spawned h => exact .spawned h
  | spawnedAtRandom h => exact .spawnedAtRandom h
  | removed id => exact .removed w id
  | operated => exact .updated w _ _
  | unbound id => exact .updated w id _
  | installed => exact .installed w _
  | bound _ _ h => exact .bound h
  | regionAdded region => exact .regionAdded w region
  | drew words => exact .drew w words
  | stepped => exact .stepped w

theorem Used.reachable (h : Used allowed w) : Reachable w := by
  induction h with
  | created h => exact .created h
  | used _ huse ih => exact ih.changed huse.change

/-- What is kept by the steps of agents is kept by a tick. -/
theorem forall_stepAgents {Q : Agent α → Prop} (h : w.agents.Forall Q)
    (hstep : ∀ agent, Q agent → ∀ id view words, Q (agent.step id view words).1) :
    w.stepAgents.1.agents.Forall Q := by
  cases hresult : w.stepAgents.2 with
  | error fault => rwa [(stepAgents_eq_error hresult).1]
  | ok activity =>
      obtain ⟨v, -, -, hstepped, -⟩ := stepAgents_eq_ok hresult w.words
      rw [hstepped]
      intro e he
      obtain ⟨i, hi⟩ := List.getElem?_of_mem he
      rw [Staging.getElem?_copies] at hi
      obtain ⟨old, hold, rfl⟩ := Option.map_eq_some_iff.mp hi
      exact hstep old.2 (h old (List.mem_of_getElem? hold)) _ _ _

/-- What is true of bodies that are placed and kept by their changes is kept by every
operation. -/
theorem Use.within {P : Body α → Prop} (hspawn : ∀ p label, p.check = .ok () →
      P ((Body.atPoint p).signal label))
    (hplace : ∀ p words, w.randomPlace = .ok (p, words) → p.check = .ok ())
    (hP : ∀ b b', Body.Change allowed b b' → P b → P b')
    (huse : Use allowed w next) (h : w.agents.Forall (Agent.Within P allowed)) :
    next.agents.Forall (Agent.Within P allowed) := by
  cases huse with
  | @spawned _ p label hspawned =>
      obtain ⟨⟨⟩, hcheck, hnext⟩ := bind_eq_ok_iff.mp hspawned
      obtain rfl := Except.ok.inj hnext
      exact h.insert (Agent.within_atPoint (hspawn p label hcheck))
  | spawnedAtRandom hspawned =>
      obtain ⟨⟨p, words⟩, hrandom, hnext⟩ := bind_eq_ok_iff.mp hspawned
      obtain rfl := Except.ok.inj hnext
      exact h.insert (Agent.within_atPoint (hspawn p "" (hplace p words hrandom)))
  | removed id => exact h.erase id
  | operated hagent hop hspeed =>
      have hbody := (hop.changes hspeed).keep hP (h.find? hagent).body
      exact h.update (fun a ha => ha.withBody hbody) _
  | unbound id => exact h.update (fun a ha => ha.unbind) id
  | installed _ hpaced => exact h.updateAll fun a ha => ha.bind hpaced
  | bound _ hpaced hbound =>
      obtain rfl := bind_eq_ok hbound
      exact h.update (fun a ha => ha.bind hpaced) _
  | regionAdded region => exact h
  | drew words => exact h
  | stepped => exact forall_stepAgents h fun agent ha id view words => ha.step hP id view words

/-- What is true of bodies that are placed and kept by their changes is true of all bodies of
a world in use. -/
theorem Used.forall_body {P : Body α → Prop} (hspawn : ∀ p label, p.check = .ok () →
      P ((Body.atPoint p).signal label))
    (hplace : ∀ w : World α, Reachable w → ∀ p words, w.randomPlace = .ok (p, words) →
      p.check = .ok ())
    (hP : ∀ b b', Body.Change allowed b b' → P b → P b') (h : Used allowed w) :
    w.agents.Forall fun agent => P agent.body := by
  have hwithin : w.agents.Forall (Agent.Within P allowed) := by
    induction h with
    | created h =>
        rw [(create_eq_ok h).2]
        intro e he
        exact absurd he List.not_mem_nil
    | used h huse ih => exact huse.within hspawn (hplace _ h.reachable) hP ih
  exact fun e he => (hwithin e he).body

end World

end Flock
