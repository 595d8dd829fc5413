import Mathlib.Order.Bounds.Image
import Flock.Proofs.Program.Traversal
import Flock.Proofs.Whole

/-!
# What a program tells of its events

The actions of a program come from a walk with a stack, their number from a scan of the array,
and its depth from a table. Of a program that was built from a stream of events, all of this can
be told from the stream (`Program.statistics_of_ofEvents`). As to the depth, the loops that are
open after a part of the stream are those that stand around the place where the part ends, so
the depth is the greatest number of loops that are open at once (`Script.isGreatest_depth`).
-/

namespace Flock

namespace Event

variable {α : Type} {events others front : List (Event α)} {n : Nat}

/-- So many loops are started in the events and not ended. -/
def LeavesOpen (events : List (Event α)) (n : Nat) : Prop :=
  events.countP isFinish + n = events.countP isStart

/-- The numbers of loops that are open at some time, before, between or after the events. -/
def openings (events : List (Event α)) : Set Nat :=
  {n | ∃ front, front <+: events ∧ LeavesOpen front n}

theorem leavesOpen_nil_iff : LeavesOpen ([] : List (Event α)) n ↔ n = 0 := by
  simp [LeavesOpen]

theorem leavesOpen_action_iff (a : Action α) :
    LeavesOpen (a.event :: events) n ↔ LeavesOpen events n := by
  simp [LeavesOpen, isStart_event_action, isFinish_event_action]

theorem leavesOpen_start_iff (loop : Loop) :
    LeavesOpen (loop.event :: events) (n + 1) ↔ LeavesOpen events n := by
  simp only [LeavesOpen, List.countP_cons, isStart_event_loop, isFinish_event_loop, if_true,
    Bool.false_eq_true, if_false]
  omega

theorem isStart_finish : (finish : Event α).isStart = false := rfl

theorem isFinish_finish : (finish : Event α).isFinish = true := rfl

theorem isAction_finish : (finish : Event α).isAction = false := rfl

theorem isAction_event_action (a : Action α) : a.event.isAction = true := by cases a <;> rfl

theorem isAction_event_loop (loop : Loop) : (loop.event : Event α).isAction = false := by
  cases loop <;> rfl

/-- A loop that is started and ended makes no difference for what comes after it. -/
theorem leavesOpen_block_iff (loop : Loop) (h : LeavesOpen events 0) :
    LeavesOpen (loop.event :: (events ++ finish :: others)) n ↔ LeavesOpen others n := by
  simp only [LeavesOpen, List.countP_cons, List.countP_append, isStart_event_loop,
    isFinish_event_loop, isStart_finish, isFinish_finish, if_true, Bool.false_eq_true,
    if_false] at h ⊢
  omega

theorem zero_mem_openings (events : List (Event α)) : 0 ∈ openings events :=
  ⟨[], List.nil_prefix, leavesOpen_nil_iff.mpr rfl⟩

theorem openings_nil : openings ([] : List (Event α)) = {0} := by
  ext n
  constructor
  · rintro ⟨front, hfront, hopen⟩
    rw [List.prefix_nil.mp hfront] at hopen
    exact leavesOpen_nil_iff.mp hopen
  · rintro rfl
    exact zero_mem_openings []

theorem openings_action (a : Action α) : openings (a.event :: events) = openings events := by
  ext n
  constructor
  · rintro ⟨front, hfront, hopen⟩
    rcases List.prefix_cons_iff.mp hfront with rfl | ⟨rest, rfl, hrest⟩
    · exact ⟨[], List.nil_prefix, hopen⟩
    · exact ⟨rest, hrest, (leavesOpen_action_iff a).mp hopen⟩
  · rintro ⟨front, hfront, hopen⟩
    exact ⟨_, List.cons_prefix_cons.mpr ⟨rfl, hfront⟩, (leavesOpen_action_iff a).mpr hopen⟩

/-- While the events of a body take place, their loop is open as well. -/
theorem openings_block (loop : Loop) (h : LeavesOpen events 0) :
    openings (loop.event :: (events ++ finish :: others)) =
      (· + 1) '' openings events ∪ openings others := by
  ext n
  constructor
  · rintro ⟨front, hfront, hopen⟩
    cases n with
    | zero => exact .inr (zero_mem_openings others)
    | succ n =>
        -- the events may end before the loop, in its body, at the end of its body or after the loop
        rcases List.prefix_cons_iff.mp hfront with rfl | ⟨inside, rfl, hinside⟩
        · exact absurd (leavesOpen_nil_iff.mp hopen) (Nat.succ_ne_zero n)
        rcases List.prefix_or_prefix_of_prefix hinside (List.prefix_append _ _) with
          hbody | ⟨outside, rfl⟩
        · exact .inl ⟨n, ⟨inside, hbody, (leavesOpen_start_iff loop).mp hopen⟩, rfl⟩
        rcases List.prefix_cons_iff.mp ((List.prefix_append_right_inj _).mp hinside) with
          rfl | ⟨back, rfl, hback⟩
        · rw [List.append_nil] at hopen
          exact .inl ⟨n, ⟨events, List.prefix_rfl, (leavesOpen_start_iff loop).mp hopen⟩, rfl⟩
        · exact .inr ⟨back, hback, (leavesOpen_block_iff loop h).mp hopen⟩
  · rintro (⟨n, ⟨front, hfront, hopen⟩, rfl⟩ | ⟨back, hback, hopen⟩)
    · exact ⟨_, List.cons_prefix_cons.mpr ⟨rfl, hfront.trans (List.prefix_append _ _)⟩,
        (leavesOpen_start_iff loop).mpr hopen⟩
    · refine ⟨_, List.cons_prefix_cons.mpr ⟨rfl, ?_⟩, (leavesOpen_block_iff loop h).mpr hopen⟩
      exact (List.prefix_append_right_inj _).mpr (List.cons_prefix_cons.mpr ⟨rfl, hback⟩)

end Event

namespace Script

variable {α : Type}

/-- In a script every loop that is started is ended. -/
theorem leavesOpen_events (s : Script α) : Event.LeavesOpen s.events 0 := by
  induction s with
  | done => exact Event.leavesOpen_nil_iff.mpr rfl
  | action node a rest ih => exact (Event.leavesOpen_action_iff a).mpr ih
  | block node loop body rest ihBody ihRest =>
      exact (Event.leavesOpen_block_iff loop ihBody).mpr ihRest

theorem isGreatest_depth (s : Script α) : IsGreatest (Event.openings s.events) s.depth := by
  induction s with
  | done =>
      rw [events, Event.openings_nil]
      exact isGreatest_singleton
  | action node a rest ih =>
      rw [events, Event.openings_action]
      exact ih
  | block node loop body rest ihBody ihRest =>
      rw [events, Event.openings_block loop body.leavesOpen_events]
      have hbody : IsGreatest ((· + 1) '' Event.openings body.events) (body.depth + 1) :=
        Monotone.map_isGreatest (fun _ _ => Nat.succ_le_succ) ihBody
      exact hbody.union ihRest

/-- The actions are declared in the order in which they are written. -/
theorem map_event_actions (s : Script α) :
    s.actions.map Action.event = s.events.filter Event.isAction := by
  induction s with
  | done => rfl
  | action node a rest ih => simp [actions, events, ih, Event.isAction_event_action]
  | block node loop body rest ihBody ihRest =>
      simp [actions, events, ihBody, ihRest, Event.isAction_event_loop, Event.isAction_finish]

/-- Each node has been declared by an action or by the start of a loop. -/
theorem length_nodes (s : Script α) :
    s.nodes.length = s.events.countP Event.isAction + s.events.countP Event.isStart := by
  induction s with
  | done => rfl
  | action node a rest ih =>
      simp [nodes, events, ih, Event.isAction_event_action, Event.isStart_event_action]
      omega
  | block node loop body rest ihBody ihRest =>
      simp [nodes, events, ihBody, ihRest, Event.isAction_event_loop, Event.isStart_event_loop,
        Event.isAction_finish, Event.isStart_finish]
      omega

end Script

namespace Program

variable {α : Type} {p : Program α}

theorem map_node?_range (p : Program α) :
    (List.range p.size).map p.node? = p.nodes.toList.map some := by
  refine List.ext_getElem (by simp [size]) fun id hid _ => ?_
  rw [List.length_map, List.length_range] at hid
  rw [List.getElem_map, List.getElem_map, List.getElem_range, Array.getElem_toList]
  exact Array.getElem?_eq_getElem hid

/-- A scan of the array finds as many actions as a descent. -/
theorem Sound.actionCount_eq (hp : p.Sound) : p.actionCount = p.outline.actions.length := by
  have hscan : p.actionCount =
      (List.range p.size).countP fun id => ((p.node? id).bind Node.action?).isSome := by
    have hnodes := congrArg (List.countP fun found => (found.bind Node.action?).isSome)
      p.map_node?_range
    rw [List.countP_map, List.countP_map] at hnodes
    rw [actionCount, ← Array.countP_toList]
    exact hnodes.symm
  rw [hscan, ← hp.nodes_perm.countP_eq, ← hp.reads_outline.filterMap_action?,
    List.length_filterMap_eq_countP]

variable [Scalar α]

/-- What a program that has been built tells of the stream that it was built from. The walk with a
stack comes to its end, whatever the number of visits that it is allowed from the number of nodes
on, and it meets the actions of the stream in their order and with all that they say. The scan
finds as many of them, the nodes are as many as the actions and the starts of loops together, and
the depth is the greatest number of loops that are open after a part of the stream. -/
theorem statistics_of_ofEvents {events : List (Event α)} (h : ofEvents events = .ok p) :
    (∀ n, p.size ≤ n → p.walk n p.root = p.preorder) ∧
    p.actions.map Action.event = events.filter Event.isAction ∧
    p.actionCount = events.countP Event.isAction ∧
    p.size = events.countP Event.isAction + events.countP Event.isStart ∧
    IsGreatest {n | ∃ front, front <+: events ∧ Event.LeavesOpen front n} p.depth := by
  obtain ⟨hp, rfl⟩ := sound_of_ofEvents h
  have hactions := p.outline.map_event_actions
  refine ⟨fun n hn => ?_, ?_, ?_, ?_, ?_⟩
  · rw [preorder, hp.walk_root hn, hp.walk_root le_rfl]
  · rw [hp.actions_eq, hactions]
  · rw [hp.actionCount_eq, List.countP_eq_length_filter, ← hactions, List.length_map]
  · rw [← hp.length_nodes, Script.length_nodes]
  · rw [hp.depth_eq]
    exact p.outline.isGreatest_depth

/-- Two loops inside another one, with an action before, between and after them. -/
theorem statistics_of_ofEvents_siblings :
    let events : List (Event Whole) :=
      [.stop, .startTimes 2, .startForever, .signal "x", .finish, .wait 3, .startUntil "r", .finish,
        .finish, .move ⟨1, 2⟩ 3]
    let p : Program Whole := ⟨#[.action .stop, .action (.signal "x"), .block .forever [1],
      .action (.wait 3), .block (.untilIn "r") [], .block (.times 2) [2, 3, 4],
      .action (.move ⟨1, 2⟩ 3)], [0, 5, 6]⟩
    ofEvents events = .ok p ∧
      p.actions.map Action.event = [.stop, .signal "x", .wait 3, .move ⟨1, 2⟩ 3] ∧
      p.actionCount = 4 ∧ p.size = 4 + 3 ∧
      IsGreatest {n | ∃ front, front <+: events ∧ Event.LeavesOpen front n} 2 := by
  intro events p
  have hbuilt : ofEvents events = .ok p := rfl
  obtain ⟨-, hactions, hcount, hsize, hdepth⟩ := statistics_of_ofEvents hbuilt
  exact ⟨hbuilt, hactions, hcount, hsize, hdepth⟩

end Program

end Flock
