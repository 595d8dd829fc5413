import Flock.Proofs.World.Round
import Flock.Proofs.World.View

/-!
# Ticks in checked arithmetic

Where arithmetic is checked for overflow, a tick comes to no end at all if there is one: when an
agent closes more loops in its step than can be counted in 32 bits, or when an agent is to follow
others and the window of its search reaches beyond the range of cell numbers
(`World.stepAgentsChecked`). Otherwise the tick is the one without such checks
(`World.stepAgentsChecked_eq_or`).

Which agent's step overflows can be told from the world (`World.StepOverflows`). None does in a
world whose agents are near the axes and have programs of moderate size
(`World.Compact.stepAgentsChecked_eq`).
-/

namespace Flock

namespace Cursor

variable {α : Type} {p : Program α} {inside : String → Bool}

theorem settle_closed_le (p : Program α) (inside : String → Bool) (index : Nat)
    (frames : List Frame) : (settle p inside index frames).2.2 ≤ frames.length := by
  induction frames with
  | nil => exact Nat.le_refl 0
  | cons f outer ih =>
      simp only [settle]
      split
      · exact Nat.succ_le_succ ih
      · exact Nat.zero_le _

theorem closeFinished_closed_le (p : Program α) (inside : String → Bool) (c : Cursor) :
    (c.closeFinished p inside).2 ≤ c.depth := by
  unfold closeFinished
  cases haround : aroundDone? (·.isDone p inside) c.frames with
  | none => exact Nat.zero_le _
  | some outer =>
      obtain ⟨inner, f, hsplit, -⟩ := aroundDone?_eq_some haround
      have hsettled := settle_closed_le p inside c.index outer
      simp only [depth, hsplit, List.length_append, List.length_cons]
      exact (Nat.succ_le_succ hsettled).trans (Nat.le_add_left _ _)

theorem seek_closed_le (p : Program α) (inside : String → Bool) (limit : Nat) (c : Cursor) :
    (c.seek p inside limit).closed ≤ limit := by
  induction limit generalizing c with
  | zero => exact Nat.le_refl 0
  | succ limit ih =>
      rw [seek]
      split
      · exact Nat.zero_le _
      · exact Nat.zero_le _
      · exact (ih _).trans (Nat.le_succ _)
      · exact Nat.succ_le_succ (ih _)

/-- A step closes no more loops than the cursor is inside, and one more with each hop. -/
theorem closedIn_le (p : Program α) (inside : String → Bool) (c : Cursor) :
    c.closedIn p inside ≤ c.depth + hopLimit p :=
  Nat.add_le_add (closeFinished_closed_le p inside c) (seek_closed_le p inside _ _)

end Cursor

variable {α : Type}

namespace Agent

/-- Whether the loops that a step closes are more than can be counted in 32 bits. -/
def countOverflows (inRegion : Point α → String → Bool) (agent : Agent α) : Bool :=
  match agent.execution with
  | none => false
  | some execution =>
    decide (UInt32.size ≤
      execution.cursor.closedIn execution.program (inRegion agent.body.position))

variable [Scalar α]

/-- Whether a step is to follow others and the search for them overflows. -/
def searchOverflows (v : View α) (id : AgentId) (agent : Agent α) : Bool :=
  match agent.due? v.surroundings.inRegion with
  | some (_, .follow _ radius _) => v.overflows id radius
  | _ => false

/-- Whether a step overflows. To follow others, an agent draws its random target first, so it does
not come to the search if there is no target to be had. -/
def stepOverflows (v : View α) (id : AgentId) (agent : Agent α) : Bool :=
  agent.countOverflows v.surroundings.inRegion ||
    (agent.fault? v.surroundings.inRegion).isNone && agent.searchOverflows v id

/-- What keeps a round from going on behind an agent: an overflow, which has no fault, or the fault
of its step. -/
def halt? (v : View α) (e : AgentId × Agent α) : Option (Option (Fault α)) :=
  if e.2.stepOverflows v e.1 then some none else (e.2.fault? v.surroundings.inRegion).map some

variable {v : View α} {e : AgentId × Agent α}

theorem halt?_eq_some_none_iff : halt? v e = some none ↔ e.2.stepOverflows v e.1 := by
  unfold halt?
  split_ifs with h <;> simp [h]

theorem halt?_eq_none_iff : halt? v e = none ↔
    e.2.stepOverflows v e.1 = false ∧ e.2.fault? v.surroundings.inRegion = none := by
  unfold halt?
  split_ifs with h <;> simp [h]

end Agent

variable [Scalar α] [Circular α]

namespace Staging

/-- Steps agents one after the other, as long as no step overflows. The loops that an agent closes
are counted before it executes an action. -/
def stepAllChecked (v : View α) :
    List (AgentId × Agent α) → Staging α → Option (Staging α × Option (Fault α))
  | [], s => some (s, none)
  | (id, agent) :: rest, s =>
    if agent.countOverflows v.surroundings.inRegion then none
    else
      match s.stepOne v.surroundings id agent with
      | (s, some fault) => some (s, some fault)
      | (s, none) => if agent.searchOverflows v id then none else stepAllChecked v rest s

variable {v : View α}

theorem stepAllChecked_cons (e : AgentId × Agent α) (rest : List (AgentId × Agent α))
    (s : Staging α) :
    s.stepAllChecked v (e :: rest) =
      match Agent.halt? v e with
      | some none => none
      | some (some fault) => some (s, some fault)
      | none => (s.stepOne v.surroundings e.1 e.2).1.stepAllChecked v rest := by
  rw [stepAllChecked, Agent.halt?, Agent.stepOverflows]
  cases hcount : e.2.countOverflows v.surroundings.inRegion with
  | true => simp
  | false =>
      cases hfault : e.2.fault? v.surroundings.inRegion with
      | some fault => simp [stepOne_of_fault? s hfault]
      | none =>
          cases hsearch : e.2.searchOverflows v e.1 <;>
            simp [stepOne_of_fault?_eq_none s s.words hfault]

/-- A round overflows if that is what keeps it from going on for the first time. -/
theorem stepAllChecked_eq_none_iff {entries : List (AgentId × Agent α)} (s : Staging α) :
    s.stepAllChecked v entries = none ↔ entries.findSome? (Agent.halt? v) = some none := by
  induction entries generalizing s with
  | nil => simp [stepAllChecked]
  | cons e rest ih =>
      rw [stepAllChecked_cons, List.findSome?_cons]
      cases hhalt : Agent.halt? v e with
      | none => exact ih _
      | some ending => cases ending <;> simp

/-- A round that does not overflow is the one without checks. -/
theorem stepAllChecked_eq_or (v : View α) (entries : List (AgentId × Agent α)) (s : Staging α) :
    s.stepAllChecked v entries = none ∨
      s.stepAllChecked v entries = some (s.stepAll v.surroundings entries) := by
  induction entries generalizing s with
  | nil => exact .inr rfl
  | cons e rest ih =>
      rw [stepAllChecked_cons, stepAll, Agent.halt?]
      split_ifs with hover
      · exact .inl rfl
      · cases hfault : e.2.fault? v.surroundings.inRegion with
        | some fault => exact .inr (by rw [stepOne_of_fault? s hfault]; rfl)
        | none =>
            rw [stepOne_of_fault?_eq_none s s.words hfault]
            exact ih _

end Staging

namespace World

/-- What a round of steps makes of its world, and what it reports. -/
def afterRound : Staging α × Option (Fault α) → World α × Except (Fault α) Activity
  | (s, some fault) => (s.world, .error fault)
  | (s, none) => (s.commit, .ok s.activity)

/-- Steps every agent once in checked arithmetic; there is no result if a step overflows. -/
def stepAgentsChecked (w : World α) : Option (World α × Except (Fault α) Activity) :=
  match w.view with
  | .error fault => some (w, .error fault)
  | .ok view => ((Staging.start w).stepAllChecked view w.agents.entries).map afterRound

variable {w : World α}

theorem afterRound_stepAll (view : Surroundings α) (w : World α) :
    afterRound ((Staging.start w).stepAll view w.agents.entries) = w.stepAgainst view := by
  unfold stepAgainst
  generalize (Staging.start w).stepAll view w.agents.entries = result
  obtain ⟨s, ending⟩ := result
  cases ending <;> rfl

theorem stepAgentsChecked_of_view {v : View α} (h : w.view = .ok v) :
    w.stepAgentsChecked =
      ((Staging.start w).stepAllChecked v w.agents.entries).map afterRound := by
  rw [stepAgentsChecked, h]

/-- A tick that does not overflow is the one without checks. -/
theorem stepAgentsChecked_eq_or (w : World α) :
    w.stepAgentsChecked = none ∨ w.stepAgentsChecked = some w.stepAgents := by
  cases hview : w.view with
  | error fault =>
      rw [stepAgentsChecked, stepAgents, hview]
      exact .inr rfl
  | ok v =>
      rw [stepAgentsChecked_of_view hview, stepAgents_of_view hview, ← afterRound_stepAll]
      exact (Staging.stepAllChecked_eq_or v w.agents.entries (.start w)).imp
        (congrArg (Option.map afterRound)) (congrArg (Option.map afterRound))

/-- The step of an agent overflows: it closes more loops than can be counted in 32 bits, or it is
to follow others, and the window of its search reaches beyond the range of cell numbers. -/
def StepOverflows (w : World α) (e : AgentId × Agent α) : Prop :=
  e.2.countOverflows w.inRegion ∨ e.2.fault? w.inRegion = none ∧
    ∃ node label radius speed, e.2.due? w.inRegion = some (node, .follow label radius speed) ∧
      Scalar.zero ≤ radius ∧ w.WindowOverflows e.1 radius

end World

variable {v : View α} {w : World α}

omit [Circular α] in
theorem View.Shows.stepOverflows_iff (h : v.Shows w) (hsound : w.agents.Sound)
    (e : AgentId × Agent α) : e.2.stepOverflows v e.1 ↔ w.StepOverflows e := by
  have hsearch : e.2.searchOverflows v e.1 ↔ ∃ node label radius speed,
      e.2.due? w.inRegion = some (node, .follow label radius speed) ∧
        Scalar.zero ≤ radius ∧ w.WindowOverflows e.1 radius := by
    unfold Agent.searchOverflows
    rw [h.inRegion_eq]
    split
    · next node label radius speed hdue =>
      rw [h.overflows_iff hsound, hdue]
      constructor
      · intro hover
        exact ⟨node, label, radius, speed, rfl, hover⟩
      · rintro ⟨node', label', radius', speed', hsame, hover⟩
        obtain ⟨-, haction⟩ := Prod.mk.inj (Option.some.inj hsame)
        obtain ⟨-, rfl, -⟩ := Action.follow.inj haction
        exact hover
    · next hother =>
      constructor
      · intro hnone
        exact absurd hnone Bool.false_ne_true
      · rintro ⟨node, label, radius, speed, hdue, -⟩
        exact absurd hdue (hother node label radius speed)
  rw [Agent.stepOverflows, World.StepOverflows, h.inRegion_eq, Bool.or_eq_true, Bool.and_eq_true,
    Option.isNone_iff_eq_none, hsearch]

namespace World

/-- A tick overflows if the step of an agent does that no agent in front of keeps from being
taken. -/
theorem stepAgentsChecked_eq_none_iff (h : Reachable w) :
    w.stepAgentsChecked = none ↔ ∃ front e rest, w.agents.entries = front ++ e :: rest ∧
      (∀ other ∈ front, other.2.fault? w.inRegion = none ∧ ¬ w.StepOverflows other) ∧
        w.StepOverflows e := by
  obtain ⟨v, hview, hshows⟩ := View.exists_shows h.isFinitePos_cellSize
  have hstep := hshows.stepOverflows_iff h.sound
  rw [stepAgentsChecked_of_view hview, Option.map_eq_none_iff, Staging.stepAllChecked_eq_none_iff,
    List.findSome?_eq_some_iff]
  simp only [Agent.halt?_eq_some_none_iff, Agent.halt?_eq_none_iff, hshows.inRegion_eq, hstep,
    ← Bool.not_eq_true, and_comm]

/-- Agents near the axes, with programs of moderate size. -/
structure Compact (w : World α) : Prop where
  near : ∀ p ∈ w.positions, Grid.IsNear (Grid.cellOf w.settings.cellSize p)
  short : ∀ e ∈ w.agents.entries, ∀ execution, e.2.execution = some execution →
    execution.cursor.depth + Cursor.hopLimit execution.program < UInt32.size

/-- No step overflows in a compact world. -/
theorem Compact.stepAgentsChecked_eq (h : w.Compact) (hw : Reachable w) :
    w.stepAgentsChecked = some w.stepAgents := by
  refine (stepAgentsChecked_eq_or w).resolve_left fun hnone => ?_
  obtain ⟨front, e, rest, hentries, -, hover⟩ := (stepAgentsChecked_eq_none_iff hw).mp hnone
  have he : e ∈ w.agents.entries := hentries ▸ List.mem_append_right _ List.mem_cons_self
  obtain ⟨v, -, hshows⟩ := View.exists_shows hw.isFinitePos_cellSize
  rcases hover with hcount | ⟨-, node, label, radius, speed, -, hradius, hwindow⟩
  · unfold Agent.countOverflows at hcount
    split at hcount
    · exact absurd hcount Bool.false_ne_true
    · next execution hexecution =>
      have hclosed := execution.cursor.closedIn_le execution.program (w.inRegion e.2.body.position)
      have hshort := h.short e he execution hexecution
      have hlarge := of_decide_eq_true hcount
      omega
  · exact hshows.not_windowOverflows hw.sound h.near hradius hwindow

end World

end Flock
