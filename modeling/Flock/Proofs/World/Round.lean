import Mathlib.Algebra.GroupWithZero.Nat
import Flock.Proofs.Agent.Draws
import Flock.Proofs.World.Fault

/-!
# Rounds of steps

All agents of a round step against one view, and the words that one of them leaves go to
the next. As the number of words that an agent draws is known beforehand, it is also
known beforehand with which words each of them steps (`Staging.copies`), and the round
fails with the fault of the first agent that has one (`Staging.snd_stepAll`). So what a
round makes of an agent can be told without stepping the others
(`Staging.getElem?_copies`).
-/

namespace Flock

variable {α : Type} [Scalar α]

namespace Staging

/-- The number of words that agents draw together. -/
def drawn (inRegion : Point α → String → Bool) (entries : List (AgentId × Agent α)) : Nat :=
  (entries.map fun e => e.2.draws inRegion).sum

theorem drawn_cons (inRegion : Point α → String → Bool) (e : AgentId × Agent α)
    (rest : List (AgentId × Agent α)) :
    drawn inRegion (e :: rest) = e.2.draws inRegion + drawn inRegion rest := rfl

theorem drawn_take_succ {inRegion : Point α → String → Bool}
    {entries : List (AgentId × Agent α)} {i : Nat} {e : AgentId × Agent α}
    (h : entries[i]? = some e) :
    drawn inRegion (entries.take (i + 1)) =
      drawn inRegion (entries.take i) + e.2.draws inRegion := by
  simp [drawn, List.take_add_one, h]

variable [Circular α] {view : Surroundings α}

/-- The copies of agents after their steps, each with the words that those before it
leave. -/
def copies (view : Surroundings α) :
    List (AgentId × Agent α) → WordStream → List (AgentId × Agent α)
  | [], _ => []
  | e :: rest, words =>
    (e.1, (e.2.step e.1 view words).1) ::
      copies view rest (words.drop (e.2.draws view.inRegion))

/-- What the step of an agent reports, if it succeeds with the given words. -/
def reported (view : Surroundings α) (words : WordStream) (e : AgentId × Agent α) :
    Option (StepReport α) :=
  match (e.2.step e.1 view words).2 with
  | .ok (report, _) => report
  | .error _ => none

/-- What agents do in their steps, added to what was done before. -/
def record (view : Surroundings α) (words : WordStream) (before : Activity)
    (entries : List (AgentId × Agent α)) : Activity :=
  entries.foldl (fun activity e => activity.record (reported view words e)) before

theorem stepOne_of_fault? {e : AgentId × Agent α} {fault : Fault α} (s : Staging α)
    (h : e.2.fault? view.inRegion = some fault) :
    s.stepOne view e.1 e.2 = (s, some fault) := by
  have hstep := Agent.step_of_fault? h e.1 s.words
  simp only [stepOne]
  generalize e.2.step e.1 view s.words = result at hstep ⊢
  obtain ⟨copy, ending⟩ := result
  obtain rfl : ending = .error fault := hstep
  rfl

/-- A step that succeeds reports the same with all words. -/
theorem stepOne_of_fault?_eq_none {e : AgentId × Agent α} (s : Staging α) (others : WordStream)
    (h : e.2.fault? view.inRegion = none) :
    s.stepOne view e.1 e.2 =
      ({ s with
          words := s.words.drop (e.2.draws view.inRegion)
          stepped := (e.1, (e.2.step e.1 view s.words).1) :: s.stepped
          activity := s.activity.record (reported view others e) }, none) := by
  obtain ⟨next, report, hstep, -⟩ := Agent.step_of_fault?_eq_none h e.1
  simp only [stepOne, reported, hstep]

/-- A round fails with the fault of the first agent that has one. -/
theorem snd_stepAll (view : Surroundings α) (entries : List (AgentId × Agent α))
    (s : Staging α) :
    (s.stepAll view entries).2 = entries.findSome? fun e => e.2.fault? view.inRegion := by
  induction entries generalizing s with
  | nil => rfl
  | cons e rest ih =>
      rw [stepAll, List.findSome?_cons]
      cases hfault : e.2.fault? view.inRegion with
      | some fault => rw [stepOne_of_fault? s hfault]
      | none =>
          rw [stepOne_of_fault?_eq_none s s.words hfault]
          exact ih _

/-- A round in which no agent fails. -/
theorem stepAll_of_fault?_eq_none {entries : List (AgentId × Agent α)} (s : Staging α)
    (others : WordStream) (h : ∀ e ∈ entries, e.2.fault? view.inRegion = none) :
    s.stepAll view entries =
      ({ s with
          words := s.words.drop (drawn view.inRegion entries)
          stepped := (copies view entries s.words).reverse ++ s.stepped
          activity := record view others s.activity entries }, none) := by
  -- what the agents before have left in `s` is arbitrary, and so are their words
  induction entries generalizing s with
  | nil => rfl
  | cons e rest ih =>
      rw [stepAll, stepOne_of_fault?_eq_none s others (h e List.mem_cons_self)]
      simp only
      rw [ih _ fun e he => h e (List.mem_cons_of_mem _ he)]
      simp [copies, drawn_cons, record, WordStream.drop_drop]

/-- The copy of an agent is what its own step makes of it, with the words that those in
front of it leave. -/
theorem getElem?_copies (view : Surroundings α) (entries : List (AgentId × Agent α))
    (words : WordStream) (i : Nat) :
    (copies view entries words)[i]? = entries[i]?.map fun e =>
      (e.1, (e.2.step e.1 view (words.drop (drawn view.inRegion (entries.take i)))).1) := by
  induction entries generalizing words i with
  | nil => rfl
  | cons e rest ih =>
      cases i with
      | zero => rfl
      | succ i =>
          rw [copies, List.getElem?_cons_succ, List.getElem?_cons_succ, ih, List.take_succ_cons,
            drawn_cons, WordStream.drop_drop]

/-- If no agent draws words, the copy of an agent is the same with any. -/
theorem copies_of_draws_eq_zero {entries : List (AgentId × Agent α)}
    (hfault : ∀ e ∈ entries, e.2.fault? view.inRegion = none)
    (hdraws : ∀ e ∈ entries, e.2.draws view.inRegion = 0) (words others : WordStream) :
    copies view entries words = entries.map fun e => (e.1, (e.2.step e.1 view others).1) := by
  induction entries with
  | nil => rfl
  | cons e rest ih =>
      have hnone := hdraws e List.mem_cons_self
      obtain ⟨next, report, hstep, -, hsame⟩ :=
        Agent.step_of_fault?_eq_none (hfault e List.mem_cons_self) e.1
      rw [copies, List.map_cons, hstep, hstep, hsame hnone words others, hnone,
        WordStream.drop_zero, ih (fun e he => hfault e (List.mem_cons_of_mem _ he))
          fun e he => hdraws e (List.mem_cons_of_mem _ he)]

/-- In which order the steps are recorded does not matter. -/
theorem record_perm {entries others : List (AgentId × Agent α)} (h : entries.Perm others)
    (view : Surroundings α) (words : WordStream) (before : Activity) :
    record view words before entries = record view words before others := by
  refine h.foldl_eq' (fun a _ b _ activity => ?_) before
  cases reported view words a with
  | none => rfl
  | some first =>
      cases reported view words b with
      | none => rfl
      | some second => simp [Activity.record, Nat.add_right_comm]

end Staging

namespace World

variable [Circular α]

/-- The world after its agents have stepped once against given surroundings, and what
they have done. -/
def stepAgainst (view : Surroundings α) (w : World α) : World α × Except (Fault α) Activity :=
  match (Staging.start w).stepAll view w.agents.entries with
  | (s, some fault) => (s.world, .error fault)
  | (s, none) => (s.commit, .ok s.activity)

theorem stepAgents_of_view {w : World α} {v : View α} (h : w.view = .ok v) :
    w.stepAgents = w.stepAgainst v.surroundings := by
  rw [stepAgents, h]
  rfl

variable {view : Surroundings α} {w : World α}

theorem stepAgainst_of_fault {fault : Fault α}
    (h : w.agents.entries.findSome? (fun e => e.2.fault? view.inRegion) = some fault) :
    w.stepAgainst view = (w, .error fault) := by
  rw [← Staging.snd_stepAll view _ (.start w)] at h
  have hworld := Staging.world_stepAll view w.agents.entries (.start w)
  rw [stepAgainst]
  generalize (Staging.start w).stepAll view w.agents.entries = result at h hworld ⊢
  obtain ⟨s, ending⟩ := result
  obtain rfl : ending = some fault := h
  exact congrArg (·, _) hworld

theorem stepAgainst_of_fault_eq_none (others : WordStream)
    (h : w.agents.entries.findSome? (fun e => e.2.fault? view.inRegion) = none) :
    w.stepAgainst view =
      ({ w with
          agents := { w.agents with entries := Staging.copies view w.agents.entries w.words }
          words := w.words.drop (Staging.drawn view.inRegion w.agents.entries) },
        .ok (Staging.record view others .none w.agents.entries)) := by
  rw [List.findSome?_eq_none_iff] at h
  rw [stepAgainst, Staging.stepAll_of_fault?_eq_none (.start w) others h]
  simp [Staging.commit, Staging.start]

theorem stepAgainst_eq_error_iff {fault : Fault α} :
    (w.stepAgainst view).2 = .error fault ↔
      w.agents.entries.findSome? (fun e => e.2.fault? view.inRegion) = some fault := by
  cases h : w.agents.entries.findSome? fun e => e.2.fault? view.inRegion with
  | some other => simp [stepAgainst_of_fault h]
  | none => simp [stepAgainst_of_fault_eq_none w.words h]

theorem isOk_stepAgainst_iff :
    (∃ activity, (w.stepAgainst view).2 = .ok activity) ↔
      ∀ e ∈ w.agents.entries, e.2.fault? view.inRegion = none := by
  rw [← List.findSome?_eq_none_iff]
  cases h : w.agents.entries.findSome? fun e => e.2.fault? view.inRegion with
  | some fault => simp [stepAgainst_of_fault h]
  | none => simp [stepAgainst_of_fault_eq_none w.words h]

/-- If no agent draws words, the fault of a round is that of a body without a heading. -/
theorem stepAgainst_eq_noHeading
    (hdraws : ∀ e ∈ w.agents.entries, e.2.draws view.inRegion = 0)
    (hfault : ¬ ∀ e ∈ w.agents.entries, e.2.fault? view.inRegion = none) :
    w.stepAgainst view = (w, .error .noHeading) := by
  rw [← List.findSome?_eq_none_iff, ← ne_eq, Option.ne_none_iff_exists'] at hfault
  obtain ⟨fault, hfault⟩ := hfault
  obtain ⟨e, he, hagent⟩ := List.exists_of_findSome?_eq_some hfault
  obtain rfl := Agent.fault?_of_draws_eq_zero (hdraws e he) hagent
  exact stepAgainst_of_fault hfault

/-- What a tick comes to that succeeds. -/
theorem stepAgents_eq_ok {w : World α} {activity : Activity} (h : w.stepAgents.2 = .ok activity)
    (others : WordStream) :
    ∃ v, w.view = .ok v ∧
      w.agents.entries.findSome? (fun e => e.2.fault? v.surroundings.inRegion) = none ∧
      w.stepAgents.1 =
        { w with
          agents := { w.agents with
            entries := Staging.copies v.surroundings w.agents.entries w.words }
          words := w.words.drop (Staging.drawn v.surroundings.inRegion w.agents.entries) } ∧
      activity = Staging.record v.surroundings others .none w.agents.entries := by
  cases hview : w.view with
  | error fault =>
      rw [stepAgents, hview] at h
      exact absurd h (by simp)
  | ok v =>
      rw [stepAgents_of_view hview] at h ⊢
      cases hfault : w.agents.entries.findSome? (fun e => e.2.fault? v.surroundings.inRegion) with
      | some fault =>
          rw [stepAgainst_of_fault hfault] at h
          exact absurd h (by simp)
      | none =>
          rw [stepAgainst_of_fault_eq_none others hfault] at h ⊢
          exact ⟨v, rfl, hfault, rfl, (Except.ok.inj h).symm⟩

end World

end Flock
