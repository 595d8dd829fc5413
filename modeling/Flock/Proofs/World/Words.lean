import Flock.Proofs.Double.Compare
import Flock.Proofs.World.Reachable
import Flock.Proofs.World.Round

/-!
# The words of a tick

With doubles for coordinates, an action takes one word for each pair of corner
coordinates that differ, two words for following within a radius that is not zero, and no
words otherwise (`Action.words`). That is all by which the agents of one tick have to do
with each other: each of them does what its own step does, from its state before the tick
and against the view from before the tick, with the words that are left when those in
front of it have taken theirs (`World.stepAgents_threads_words`).
-/

namespace Flock

namespace Scalar

theorem differ_double (a b : Float) : differ a b = !(a == b) := by
  rw [differ, ← Bool.decide_and, Bool.not_inj_iff, Bool.eq_iff_iff, decide_eq_true_iff,
    Double.beq_iff]

end Scalar

namespace Action

/-- The number of words that an action takes. -/
def words : Action Float → Nat
  | wander corner1 corner2 _ =>
    (if corner1.x == corner2.x then 0 else 1) + (if corner1.y == corner2.y then 0 else 1)
  | follow _ radius _ => if radius == 0 then 0 else 2
  | _ => 0

theorem draws_double (a : Action Float) : a.draws = a.words := by
  cases a with
  | wander corner1 corner2 speed =>
      simp only [draws, ranges, List.countP_cons, List.countP_nil, Scalar.differ_double, words]
      cases corner1.x == corner2.x <;> cases corner1.y == corner2.y <;> rfl
  | follow label radius speed =>
      have hzero : (-radius == radius) = (radius == 0) := Bool.eq_iff_iff.mpr Double.neg_beq_iff
      simp only [draws, ranges, List.countP_cons, List.countP_nil, Scalar.differ_double, words,
        hzero]
      cases radius == 0 <;> rfl
  | move target speed => rfl
  | signal label => rfl
  | unsignal label => rfl
  | stop => rfl
  | wait ticks => rfl

end Action

/-- The number of words that a step took, by its report. A step that ran no action took
none. -/
def StepReport.words (report : Option (StepReport Float)) : Nat :=
  (report.bind (·.executed)).elim 0 fun executed => executed.2.words

namespace Staging

/-- What the step of an agent reports says how many words it draws. -/
theorem words_reported {view : Surroundings Float} {e : AgentId × Agent Float}
    (h : e.2.fault? view.inRegion = none) (others : WordStream) :
    StepReport.words (reported view others e) = e.2.draws view.inRegion := by
  obtain ⟨next, report, hstep, hexecuted, -⟩ := Agent.step_of_fault?_eq_none h e.1
  simp only [StepReport.words, reported, hstep, hexecuted, Agent.draws, Cursor.drawsOf,
    Action.draws_double]

theorem sum_words_reported {view : Surroundings Float} {entries : List (AgentId × Agent Float)}
    (h : ∀ e ∈ entries, e.2.fault? view.inRegion = none) (others : WordStream) :
    ((entries.map (reported view others)).map StepReport.words).sum =
      drawn view.inRegion entries := by
  rw [drawn, List.map_map]
  exact congrArg List.sum (List.map_congr_left fun e he => words_reported (h e he) others)

end Staging

namespace World

variable {w : World Float} {activity : Activity}

/-- In a tick that succeeds, each agent steps from its own state before the tick, against
the view from before the tick, and with the words that those in front of it leave. How
many these are can be told from the actions that they executed, by what their steps
report. The words that the last agent leaves are those of the world after the tick. -/
theorem stepAgents_threads_words (h : w.stepAgents.2 = .ok activity) :
    ∃ (v : View Float) (reports : List (Option (StepReport Float))),
      w.view = .ok v ∧ reports.length = w.agents.entries.length ∧
      (∀ (i : Nat) (id : AgentId) (agent : Agent Float),
        w.agents.entries[i]? = some (id, agent) →
        ∃ next report, reports[i]? = some report ∧
          agent.step id v.surroundings
              (w.words.drop ((reports.take i).map StepReport.words).sum) =
            (next, .ok (report, w.words.drop ((reports.take (i + 1)).map StepReport.words).sum)) ∧
          w.stepAgents.1.agents.entries[i]? = some (id, next)) ∧
      w.stepAgents.1.agents.ids = w.agents.ids ∧
      w.stepAgents.1.words = w.words.drop (reports.map StepReport.words).sum := by
  obtain ⟨v, hview, hfine, hstep, -⟩ := stepAgents_eq_ok h w.words
  have hfault := List.findSome?_eq_none_iff.mp hfine
  have hdrawn (i : Nat) :
      (((w.agents.entries.map (Staging.reported v.surroundings w.words)).take i).map
        StepReport.words).sum = Staging.drawn v.surroundings.inRegion (w.agents.entries.take i) := by
    rw [← List.map_take]
    exact Staging.sum_words_reported (fun e he => hfault e (List.mem_of_mem_take he)) w.words
  refine ⟨v, w.agents.entries.map (Staging.reported v.surroundings w.words), hview,
    List.length_map .., fun i id agent he => ?_, (stepAgents_keeps w).2.1, ?_⟩
  · obtain ⟨next, report, hagent, -⟩ :=
      Agent.step_of_fault?_eq_none (hfault _ (List.mem_of_getElem? he)) id
    refine ⟨next (w.words.drop (Staging.drawn v.surroundings.inRegion (w.agents.entries.take i))),
      report, ?_, ?_, ?_⟩
    · simp [he, Staging.reported, hagent]
    · rw [hdrawn, hdrawn, hagent, Staging.drawn_take_succ he, ← WordStream.drop_drop]
    · simp [hstep, Staging.getElem?_copies, he, hagent]
  · rw [hstep, Staging.sum_words_reported hfault]

/-- An agent that is to run one action. -/
def runner (place : Float) (action : Action Float) : Agent Float :=
  ⟨.atPoint ⟨place, place⟩, some (.start ⟨#[.action action], [0]⟩)⟩

/-- Two agents that are to wander, the second of them along the first axis only, and one
that is to broadcast. -/
def wanderers : World Float :=
  ⟨.default, .ofSeed 3,
    ⟨[(⟨1, 0⟩, runner 0 (.wander ⟨0, 0⟩ ⟨4, 4⟩ 1)), (⟨2, 1⟩, runner 3 (.wander ⟨0, 5⟩ ⟨9, 5⟩ 1)),
      (⟨3, 2⟩, runner 6 (.signal "x"))], [], 4, 3⟩, []⟩

/-- The first of the agents takes two words, the second one, and the third none. -/
theorem stepAgents_threads_words_wanderers :
    wanderers.stepAgents.2 = .ok ⟨3, 0, 3⟩ ∧
    ∃ (v : View Float) (next : Agent Float) (report : Option (StepReport Float)),
      wanderers.view = .ok v ∧
      (runner 3 (.wander ⟨0, 5⟩ ⟨9, 5⟩ 1)).step ⟨2, 1⟩ v.surroundings (wanderers.words.drop 2) =
        (next, .ok (report, wanderers.words.drop 3)) ∧
      wanderers.stepAgents.1.agents.entries[1]? = some (⟨2, 1⟩, next) ∧
      wanderers.stepAgents.1.words = wanderers.words.drop 3 := by
  have hok : wanderers.stepAgents.2 = .ok ⟨3, 0, 3⟩ := rfl
  obtain ⟨v, reports, hview, hlength, hsteps, -, hlast⟩ := stepAgents_threads_words hok
  obtain ⟨first, second, third, rfl⟩ := List.length_eq_three.mp hlength
  -- how many words a step takes can be evaluated whatever the view is
  let taken (result : Agent Float × Except (Fault Float) (Option (StepReport Float) × WordStream)) :=
    result.2.map (StepReport.words ·.1)
  have hfirst : 2 = StepReport.words first := by
    obtain ⟨_, _, hreport, hstep, -⟩ := hsteps 0 _ _ rfl
    obtain rfl := Option.some.inj hreport
    exact Except.ok.inj (congrArg taken hstep)
  have hthird : 0 = StepReport.words third := by
    obtain ⟨_, _, hreport, hstep, -⟩ := hsteps 2 _ _ rfl
    obtain rfl := Option.some.inj hreport
    exact Except.ok.inj (congrArg taken hstep)
  obtain ⟨next, _, hreport, hstep, hnext⟩ := hsteps 1 _ _ rfl
  obtain rfl := Option.some.inj hreport
  have hsecond : 1 = StepReport.words second := Except.ok.inj (congrArg taken hstep)
  simp only [List.take, List.map, List.sum_cons, List.sum_nil, ← hfirst, ← hsecond, ← hthird]
    at hstep hlast
  exact ⟨hok, v, next, second, hview, hstep, hnext, hlast⟩

end World

end Flock
