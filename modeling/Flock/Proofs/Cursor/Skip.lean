import Flock.Proofs.Cursor.Calm
import Flock.Proofs.Whole

/-!
# Skipped passes

A loop with a number of passes goes on to its last when a pass has run no action. The
passes skipped are to be such as would run none either. This holds of an agent that is
where the last step without an action left it, but not of every agent: one that is moved
in the middle of such a pass can stand where the first children of the loop would find
something to do. `silent_iff` tells exactly when that is, from the body of the loop
alone.
-/

namespace Flock

namespace Cursor

variable {α : Type} {p : Program α} {inside : String → Bool} {c d : Cursor} {f : Frame}
  {frames outer : List Frame}

/-- Moving the frame on counts more than the one pass that has ended. -/
def Skips (p : Program α) (f : Frame) : Prop := f.passes + 1 < (f.advance p).passes

instance (p : Program α) (f : Frame) : Decidable (Skips p f) :=
  inferInstanceAs (Decidable (f.passes + 1 < (f.advance p).passes))

/-- Passes are skipped at the last child of a loop with a number of passes, after a pass
that has run no action. -/
theorem Skips.ends_quiet_pass (h : Skips p f) :
    f.ran = false ∧ (p.children f.node).length ≤ f.index + 1 ∧
      ∃ count kids, p.node? f.node = some (.block (.times count) kids) := by
  unfold Skips Frame.advance at h
  split at h
  · exact absurd h (by simp)
  · next hlast =>
    dsimp only at h
    unfold Frame.passesAfter at h
    split at h
    · next count kids hnode =>
      split at h
      · omega
      · next hran => exact ⟨by simpa using hran, by omega, count, kids, hnode⟩
    · omega

/-- The frames around a child that a step moves past: of a loop closed in the first phase
or on the search for an action, or of the action itself. -/
inductive MovesPast (p : Program α) (inside : String → Bool) (c : Cursor) : List Frame → Prop where
  | abandoned {outer frames : List Frame}
      (haround : aroundDone? (·.isDone p inside) c.frames = some outer)
      (hsettles : Settles p inside outer frames) : MovesPast p inside c frames
  | closed {n : Nat} {d : Cursor} {f : Frame} {outer : List Frame} (hn : n < hopLimit p)
      (hleads : Leads p inside n (c.closeFinished p inside).1 d) (hframes : d.frames = f :: outer)
      (hdone : f.isDone p inside) : MovesPast p inside c outer
  | executed {node : Nat} {a : Action α} (h : (c.found p inside).action? = some (node, a)) :
      MovesPast p inside c (c.found p inside).cursor.markRan.frames

/-- In a step from calm frames, whatever is moved past is gone through. -/
theorem MovesPast.passed (hp : p.Descends) (hc : Sound p c) (hcalm : Calm p inside c.frames)
    (h : MovesPast p inside c frames) : Passed p inside frames := by
  cases h with
  | abandoned haround hsettles =>
      obtain ⟨hopen, hcalm, hpassed⟩ := hcalm.aroundDone hp hc haround
      exact (hcalm.settles hp hopen hpassed hsettles).2.2
  | closed _ hleads hframes hdone =>
      have hsound := hc.closeFinished.leads hleads
      have hcalm := (hcalm.closeFinished hp hc).leads hp hc.closeFinished hleads
      have hnested := hsound.nested
      rw [hframes] at hnested hcalm
      exact hcalm.passed hp hnested hdone
  | executed => exact passed_of_ran p inside ran_of_mem_markRan

/-- Whether a search from the start of a program comes to an action can be read off the
program. -/
theorem seek_start_eq_none_iff (hp : p.Descends) (hroot : Named p p.root) :
    (∀ n, (seek p inside n start).action? = none) ↔ p.outline.fate inside ≠ .acts := by
  by_cases hempty : p.root = []
  · have hhop : start.hop p inside = .rest :=
      hop_of_pending_nil (by rw [pending, start, level, spot, hempty, List.drop_nil]) rfl
    have hfate : p.outline.fate inside = .through := by
      rw [Program.outline, hempty, Program.script_nil, Script.fate]
    refine iff_of_true (fun n => ?_) (by simp [hfate])
    rcases seek_cases p inside n start with ⟨m, -, hends⟩ | ⟨-, hnone⟩
    · rw [(hends.unique (.rest hhop)).2]
    · exact hnone
  · have hpass : Passes p inside start _ _ (p.outline.fate inside) :=
      passesOver hp _ start p.root rfl hroot rfl hempty rfl
    constructor
    · intro hsilent hacts
      obtain ⟨k, -, found, hends, haction⟩ := hpass.acts hacts
      have hnone := hsilent (k + 1)
      rw [seek_of_endsIn hends (Nat.lt_succ_self k)] at hnone
      rw [hnone] at haction
      exact absurd haction (by simp)
    · intro hfate n
      rcases seek_cases p inside n start with ⟨m, -, hends⟩ | ⟨-, hnone⟩
      · cases hmeets : p.outline.fate inside with
        | acts => exact absurd hmeets hfate
        | stuck => exact (hpass.stuck hmeets m _ hends).2
        | through =>
            obtain ⟨k, -, -, hleads⟩ := hpass.through hmeets
            obtain ⟨l, rest, -, hrest, -, haction⟩ := hends.of_leads hleads
            rw [← haction, (hrest.unique (.rest (hop_past_of_nil rfl))).2]
      · exact hnone

/-- A pass over the sequence, from its start, comes to no action. -/
def Silent (p : Program α) (inside : String → Bool) (ids : List Nat) : Prop :=
  ∀ n, (seek { p with root := ids } inside n start).action? = none

theorem silent_iff (hp : p.Descends) {ids : List Nat} (hids : Named p ids) :
    Silent p inside ids ↔ (p.script ids).fate inside ≠ .acts := by
  have hscript : Program.outline { p with root := ids } = p.script ids :=
    Program.script_congr (q := { p with root := ids }) hp (Nat.le_refl p.size) (fun _ _ => rfl) hids
  rw [← hscript]
  exact seek_start_eq_none_iff hp hids

section History

variable [Scalar α] [Circular α]

/-- The cursors that a program can come to while its agent is moved from one region to
another only after steps that execute an action or fail. The agent stands in the regions
given. -/
inductive Unmoved (p : Program α) : (String → Bool) → Cursor → Prop where
  | start (inside : String → Bool) : Unmoved p inside start
  | idle {c d : Cursor} {id : AgentId} {view : Surroundings α} {b : Body α} {words : WordStream}
      {turn : Turn α} (h : Unmoved p (view.inRegion b.position) c)
      (hstep : c.step p id view b words = (d, .ok turn)) (hidle : turn.report.executed = none) :
      Unmoved p (view.inRegion b.position) d
  | executed {c d : Cursor} {id : AgentId} {view : Surroundings α} {b : Body α}
      {words : WordStream} {turn : Turn α} (h : Unmoved p (view.inRegion b.position) c)
      (hstep : c.step p id view b words = (d, .ok turn)) (hexecuted : turn.report.executed ≠ none)
      (inside : String → Bool) : Unmoved p inside d
  | failed {c d : Cursor} {id : AgentId} {view : Surroundings α} {b : Body α}
      {words : WordStream} {fault : Fault α} (h : Unmoved p (view.inRegion b.position) c)
      (hstep : c.step p id view b words = (d, .error fault)) (inside : String → Bool) :
      Unmoved p inside d

theorem calm_of_unmoved (hp : p.Descends) (h : Unmoved p inside c) :
    Sound p c ∧ Calm p inside c.frames := by
  induction h with
  | start inside => exact ⟨sound_start p, trivial⟩
  | @idle c d id view b words turn _ hstep hidle ih =>
      have hsound := ih.1.step id view b words
      have houtcome := outcome_step p id view c b words
      rw [hstep] at hsound houtcome
      cases houtcome with
      | idle => exact ⟨hsound, ih.2.found hp ih.1⟩
      | executed => exact absurd hidle (by simp)
  | @executed c d id view b words turn _ hstep hexecuted inside ih =>
      have hsound := ih.1.step id view b words
      have houtcome := outcome_step p id view c b words
      rw [hstep] at hsound houtcome
      refine ⟨hsound, ?_⟩
      cases houtcome with
      | idle => exact absurd rfl hexecuted
      | executed haction hexecute =>
          obtain ⟨hdone, hid, hnode⟩ := reached_of_hop (hop_found haction)
          have hmark : Sound p (c.found p (view.inRegion b.position)).cursor.markRan :=
            ih.1.found.markRan
          rcases execute_eq_ok hmark (by rwa [current?_markRan]) hnode hexecute with
            ⟨rfl, -⟩ | ⟨_, _, _, _, _, rfl⟩
          · exact calm_advance_of_ran p inside hmark.nested ran_of_mem_markRan
          · exact calm_of_ran p inside ran_of_mem_markRan
  | @failed c d id view b words fault _ hstep inside ih =>
      have hsound := ih.1.step id view b words
      have houtcome := outcome_step p id view c b words
      rw [hstep] at hsound houtcome
      refine ⟨hsound, ?_⟩
      cases houtcome with
      | failed => exact calm_of_ran p inside ran_of_mem_markRan

/-- Where passes are skipped, they would have come to no action if and only if that can
be read off the body of the loop, at the regions that the agent stands in. This is so
unless the agent was moved from one region to another after a step that executed
nothing. -/
theorem silent_of_skips {events : List (Event α)} (hp : Program.ofEvents events = .ok p)
    (hmoves : MovesPast p inside c (f :: outer)) (hskips : Skips p f) :
    (Silent p inside (p.children f.node) ↔
      (p.script (p.children f.node)).fate inside ≠ .acts) ∧
    (Unmoved p inside c → Silent p inside (p.children f.node)) := by
  have hdescends := (Program.sound_of_ofEvents hp).1.descends
  obtain ⟨hran, hlast, count, kids, hnode⟩ := hskips.ends_quiet_pass
  have hkids : Named p (p.children f.node) := by
    rw [Frame.children_eq hnode]
    exact fun kid hkid =>
      Nat.lt_trans (hdescends _ _ _ hnode kid hkid) (Program.lt_size_of_node? hnode)
  have hiff : Silent p inside _ ↔ _ := silent_iff hdescends hkids
  refine ⟨hiff, fun hunmoved => hiff.mpr ?_⟩
  obtain ⟨hsound, hcalm⟩ := calm_of_unmoved hdescends hunmoved
  have hpassed := hmoves.passed hdescends hsound hcalm f rfl hran
  rw [take_eq_self_of_last hlast] at hpassed
  rw [hpassed]
  simp

/-- Five passes that find nothing to run, of which four are skipped. -/
theorem silent_of_skips_times :
    ∃ p : Program Whole,
      Program.ofEvents [.startTimes 5, .startTimes 0, .finish, .finish] = .ok p ∧
        Skips p ⟨1, 0, 0, false⟩ ∧ Silent p (fun _ => false) [0] := by
  have hbuilt : Program.ofEvents [.startTimes 5, .startTimes 0, .finish, .finish] =
      .ok (⟨#[.block (.times 0) [], .block (.times 5) [0]], [1]⟩ : Program Whole) := by decide
  refine ⟨_, hbuilt, by decide, ?_⟩
  have hleads : Leads (⟨#[.block (.times 0) [], .block (.times 5) [0]], [1]⟩ : Program Whole)
      (fun _ => false) 2 start ⟨0, [.enter 0, .enter 1], none⟩ :=
    .entered rfl (.entered rfl (.refl _))
  exact (silent_of_skips hbuilt (.closed (by decide) hleads rfl (by decide)) (by decide)).2
    (.start _)

/-- Passes are skipped in which the agent would have run an action. It was waiting for
region `a` in the second loop when it was moved there, out of region `b`: the action in
the first loop would have been the next. -/
theorem not_silent_of_skips :
    ∃ p : Program Whole,
      Program.ofEvents [.startTimes 5, .startUntil "b", .signal "x", .finish, .startUntil "a",
        .finish, .finish] = .ok p ∧
      let regions : List (Region Whole) := [⟨"b", .circle ⟨0, 0⟩ 1⟩, ⟨"a", .circle ⟨10, 0⟩ 1⟩]
      let inside := Region.anyContains regions
      let c := (start.step p ⟨0, 0⟩ (.alone regions) (.atPoint ⟨0, 0⟩) (.ofSeed 0)).1
      MovesPast p (inside ⟨10, 0⟩) c [⟨3, 1, 0, false⟩] ∧ Skips p ⟨3, 1, 0, false⟩ ∧
        ¬Silent p (inside ⟨10, 0⟩) (p.children 3) := by
  refine ⟨⟨#[.action (.signal "x"), .block (.untilIn "b") [0], .block (.untilIn "a") [],
    .block (.times 5) [1, 2]], [3]⟩, by decide, .abandoned rfl (.here _), by decide, ?_⟩
  intro hsilent
  exact absurd (hsilent 3) (by decide)

end History

end Cursor

end Flock
