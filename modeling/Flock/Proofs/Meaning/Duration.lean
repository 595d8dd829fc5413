import Flock.Proofs.Agent.Headless
import Flock.Proofs.Cursor.Standing
import Flock.Proofs.Meaning.Agreement

/-!
# How long programs take

A program in which every loop has a number of passes takes as many ticks as its actions do,
those in a loop once in each pass (`Script.duration`). Every tick takes one from the duration
of what is left, and where nothing of it remains the end of the program has been reached
(`Rest.Finds.takes`). There is always something to be found, however many passes without any
action there are (`Rest.IsCounted.finds`). So from the start of such a program the cursor
executes an action in each of so many steps and none after them (`Cursor.takes_duration`).
-/

namespace Flock

/-- The ticks that an action takes. -/
def Action.duration {α : Type} : Action α → Nat
  | wait ticks => max 1 ticks.toNat
  | _ => 1

namespace Loop

/-- The loop has a number of passes. -/
def IsCounted : Loop → Prop
  | times _ => True
  | _ => False

/-- The number of passes, if the loop has one. -/
def count : Loop → Nat
  | times count => count.toNat
  | _ => 0

end Loop

namespace Script

variable {α : Type}

/-- The ticks that a sequence takes in which all loops have a number of passes. -/
def duration : Script α → Nat
  | done => 0
  | action _ a rest => a.duration + rest.duration
  | block _ loop body rest => loop.count * body.duration + rest.duration

/-- All loops have a number of passes. -/
def IsCounted : Script α → Prop
  | done => True
  | action _ _ rest => rest.IsCounted
  | block _ loop body rest => loop.IsCounted ∧ body.IsCounted ∧ rest.IsCounted

end Script

/-- All loops of the program have a number of passes. -/
def Program.IsCounted {α : Type} (p : Program α) : Prop :=
  ∀ id loop kids, p.node? id = some (.block loop kids) → loop.IsCounted

theorem Program.IsCounted.scriptTo {α : Type} {p : Program α} (h : p.IsCounted) (n : Nat)
    (ids : List Nat) : (p.scriptTo n ids).IsCounted := by
  induction n generalizing ids with
  | zero => exact trivial
  | succ n ihLevels =>
      induction ids with
      | nil => exact trivial
      | cons id ids ih =>
          simp only [Program.scriptTo, List.foldr_cons] at ih ⊢
          cases hnode : p.node? id with
          | none => exact ih
          | some node =>
              cases node with
              | action a => exact ih
              | block loop kids => exact ⟨h id loop kids hnode, ihLevels kids, ih⟩

namespace Rest

variable {α : Type} {inside : String → Bool} {n : Nat} {r next : Rest α} {body after : Script α}
  {result : Option (Nat × Action α × Rest α)}

/-- The ticks that are left. -/
def duration : Rest α → Nat
  | todo s => s.duration
  | waiting _ _ left after => left + after.duration
  | passes more body now after => now.duration + more * body.duration + after.duration
  | endless _ _ now after => now.duration + after.duration

/-- All loops have a number of passes, and a wait that is left has ticks left. -/
def IsCounted : Rest α → Prop
  | todo s => s.IsCounted
  | waiting _ _ left after => 0 < left ∧ after.IsCounted
  | passes _ body now after => body.IsCounted ∧ now.IsCounted ∧ after.IsCounted
  | endless .. => False

/-- Only loops that end in a region are abandoned. -/
theorem IsCounted.abandon (h : r.IsCounted) (inside : String → Bool) : r.abandon inside = r := by
  induction r with
  | todo s => rfl
  | waiting node ticks left after => rfl
  | passes more body now after ih => rw [Rest.abandon, ih h.2.1]
  | endless region? body now after ih => exact h.elim

/-! Every tick is taken from what is left. -/

/-- A move that executes an action takes a tick, and other moves take none. -/
def Spends (ticks : Nat) : Move α → Prop
  | .acts _ _ next => next.IsCounted ∧ ticks = next.duration + 1
  | .quiet next => next.IsCounted ∧ next.duration = ticks
  | .ended => ticks = 0

theorem spends_afterAction (node : Nat) (a : Action α) (h : after.IsCounted) :
    (afterAction node after a).IsCounted ∧
      a.duration + after.duration = (afterAction node after a).duration + 1 := by
  cases a with
  | wait ticks =>
      rw [afterAction, ofWait, Action.duration]
      split
      · refine ⟨h, ?_⟩
        rw [duration]
        omega
      · refine ⟨⟨by omega, h⟩, ?_⟩
        rw [duration]
        omega
  | _ => exact ⟨h, Nat.add_comm _ _⟩

theorem duration_enter (inside : String → Bool) {loop : Loop} (hloop : loop.IsCounted)
    (hbody : body.IsCounted) (hafter : after.IsCounted) :
    (enter inside body after loop).IsCounted ∧
      (enter inside body after loop).duration = loop.count * body.duration + after.duration := by
  cases loop with
  | forever => exact hloop.elim
  | untilIn region => exact hloop.elim
  | times count =>
      rw [enter, Loop.count]
      split
      · next hzero =>
        refine ⟨hafter, ?_⟩
        rw [hzero, duration, Nat.zero_mul, Nat.zero_add]
      · next hpos =>
        obtain ⟨more, hmore⟩ := Nat.exists_eq_add_one_of_ne_zero hpos
        refine ⟨⟨hbody, hbody, hafter⟩, ?_⟩
        rw [hmore, duration, duration, Nat.add_sub_cancel, Nat.succ_mul]
        omega

theorem duration_nextPass (hbody : body.IsCounted) (hafter : after.IsCounted) (more : Nat) :
    (nextPass body after more).IsCounted ∧
      (nextPass body after more).duration = more * body.duration + after.duration := by
  cases more with
  | zero =>
      refine ⟨hafter, ?_⟩
      rw [nextPass, duration, Nat.zero_mul, Nat.zero_add]
  | succ more =>
      refine ⟨⟨hbody, hbody, hafter⟩, ?_⟩
      rw [nextPass, duration, duration, Nat.succ_mul]
      omega

theorem spends_move (inside : String → Bool) (h : r.IsCounted) :
    Spends r.duration (r.move inside) := by
  induction r with
  | todo s =>
      cases s with
      | done => rfl
      | action node a after => exact spends_afterAction node a h
      | block node loop body after => exact duration_enter inside h.1 h.2.1 h.2.2
  | waiting node ticks left after =>
      obtain ⟨hpos, hafter⟩ := h
      rw [move, ofWait, Spends, duration]
      split
      · refine ⟨hafter, ?_⟩
        rw [duration]
        omega
      · refine ⟨⟨by omega, hafter⟩, ?_⟩
        rw [duration]
        omega
  | passes more body now after ih =>
      obtain ⟨hbody, hnow, hafter⟩ := h
      have hspends := ih hnow
      rw [move, duration]
      cases hmove : now.move inside with
      | acts node a next =>
          rw [hmove] at hspends
          obtain ⟨hnext, htick⟩ := hspends
          refine ⟨⟨hbody, hnext, hafter⟩, ?_⟩
          rw [htick, duration]
          omega
      | quiet next =>
          rw [hmove] at hspends
          obtain ⟨hnext, hsame⟩ := hspends
          exact ⟨⟨hbody, hnext, hafter⟩, by rw [duration, hsame]⟩
      | ended =>
          rw [hmove] at hspends
          have hzero : now.duration = 0 := hspends
          rw [hzero, Nat.zero_add]
          exact duration_nextPass hbody hafter more
  | endless region? body now after ih => exact h.elim

/-- What is found takes one tick of what is left, and where nothing is found none is left. -/
def Takes (ticks : Nat) : Option (Nat × Action α × Rest α) → Prop
  | some (_, _, next) => next.IsCounted ∧ ticks = next.duration + 1
  | none => ticks = 0

theorem Finds.takes (h : Finds inside n r result) (hr : r.IsCounted) : Takes r.duration result := by
  induction h with
  | acts hmove =>
      have hspends := spends_move inside hr
      rwa [hmove] at hspends
  | ended hmove =>
      have hspends := spends_move inside hr
      rwa [hmove] at hspends
  | quiet hmove _ ih =>
      have hspends := spends_move inside hr
      rw [hmove] at hspends
      obtain ⟨hnext, hsame⟩ := hspends
      rw [← hsame]
      exact ih hnext

/-! There is always something to be found. -/

theorem eq_done_of_move (h : r.move inside = .ended) : r = todo .done := by
  have hinLoop (around : Rest α → Rest α) (finish : Rest α) (m : Move α) :
      m.inLoop around finish ≠ .ended := by cases m <;> simp [Move.inLoop]
  cases r with
  | todo s => cases s <;> simp_all [move]
  | waiting node ticks left after => exact absurd h (by simp [move])
  | passes more body now after => exact absurd h (hinLoop _ _ _)
  | endless region? body now after => exact absurd h (hinLoop _ _ _)

theorem Finds.quiet_of_none (h : Finds inside n r none) : ∃ m, Quiet inside m r (todo .done) := by
  generalize hresult : (none : Option (Nat × Action α × Rest α)) = result at h
  induction h with
  | acts => exact absurd hresult (by simp)
  | ended hmove =>
      rw [eq_done_of_move hmove]
      exact ⟨0, .refl _⟩
  | quiet hmove _ ih =>
      obtain ⟨m, hquiet⟩ := ih hresult
      exact ⟨m + 1, .move hmove hquiet⟩

theorem Finds.around {node : Nat} {a : Action α} (around : Rest α → Rest α) {finish : Rest α}
    (haround : ∀ r, (around r).move inside = (r.move inside).inLoop around finish)
    (h : Finds inside n r (some (node, a, next))) :
    Finds inside n (around r) (some (node, a, around next)) := by
  generalize hresult : some (node, a, next) = result at h
  induction h with
  | acts hmove =>
      obtain ⟨rfl, rfl, rfl⟩ : _ ∧ _ ∧ _ := by simpa using hresult
      refine .acts ?_
      rw [haround, hmove, Move.inLoop]
  | ended => exact absurd hresult (by simp)
  | quiet hmove _ ih =>
      refine .quiet ?_ (ih hresult)
      rw [haround, hmove, Move.inLoop]

/-- Something is found in a loop with a number of passes, or behind it, if something is found
in what is left of its present pass, in its body, and behind the loop. -/
theorem finds_passes (hbody : ∃ n result, Finds inside n (todo body) result)
    (hafter : ∃ n result, Finds inside n (todo after) result) {now : Rest α}
    (hnow : ∃ n result, Finds inside n now result) (more : Nat) :
    ∃ n result, Finds inside n (passes more body now after) result := by
  obtain ⟨n, result, hnow⟩ := hnow
  cases result with
  | some found => exact ⟨n, _, hnow.around (passes more body · after) fun _ => rfl⟩
  | none =>
      obtain ⟨m, hquiet⟩ := hnow.quiet_of_none
      have hdone : Quiet inside m (passes more body now after)
          (passes more body (todo .done) after) :=
        hquiet.around (passes more body · after) fun _ => rfl
      obtain ⟨k, result, hbody⟩ := hbody
      obtain ⟨l, later, hafter⟩ := hafter
      cases result with
      | none =>
          obtain ⟨i, hskipped⟩ := quiet_passes hbody.quiet_of_none after more
          exact ⟨_, later, hdone.finds (hskipped.finds hafter)⟩
      | some found =>
          cases more with
          | zero => exact ⟨_, later, hdone.finds (.quiet rfl hafter)⟩
          | succ more =>
              have hpass := hbody.around (passes more body · after) fun _ => rfl
              exact ⟨_, _, hdone.finds (.quiet rfl hpass)⟩

theorem finds_todo {s : Script α} (h : s.IsCounted) (inside : String → Bool) :
    ∃ n result, Finds inside n (todo s) result := by
  induction s with
  | done => exact ⟨0, _, .ended rfl⟩
  | action node a after => exact ⟨0, _, .acts rfl⟩
  | block node loop body after ihBody ihAfter =>
      obtain ⟨hloop, hbody, hafter⟩ := h
      suffices hentered : ∃ n result, Finds inside n (enter inside body after loop) result by
        obtain ⟨n, result, hfinds⟩ := hentered
        exact ⟨n + 1, result, .quiet rfl hfinds⟩
      cases loop with
      | forever => exact hloop.elim
      | untilIn region => exact hloop.elim
      | times count =>
          rw [enter]
          split
          · exact ihAfter hafter
          · exact finds_passes (ihBody hbody) (ihAfter hafter) (ihBody hbody) _

/-- Where all loops have a number of passes there is an action to be found or the end, however
many passes lie before it. -/
theorem IsCounted.finds (h : r.IsCounted) (inside : String → Bool) :
    ∃ n result, Finds inside n r result := by
  induction r with
  | todo s => exact finds_todo h inside
  | waiting node ticks left after => exact ⟨0, _, .acts rfl⟩
  | passes more body now after ih =>
      obtain ⟨hbody, hnow, hafter⟩ := h
      exact finds_passes (finds_todo hbody inside) (finds_todo hafter inside) (ih hnow) more
  | endless region? body now after ih => exact h.elim

end Rest

namespace Cursor

variable {α : Type} {p : Program α} {inside : String → Bool} {c d : Cursor} {r : Rest α}

/-- At the end of the program there is nothing to be found. -/
theorem found_of_isExhausted (h : c.isExhausted p) (inside : String → Bool) :
    c.found p inside = ⟨c, 0, none⟩ ∧ c.closedIn p inside = 0 := by
  have hexhausted := h
  simp only [isExhausted, Bool.and_eq_true, List.isEmpty_iff, decide_eq_true_iff] at hexhausted
  obtain ⟨hframes, hindex⟩ := hexhausted
  have hclosed : c.closeFinished p inside = (c, 0) :=
    closeFinished_of_none (by rw [hframes, aroundDone?])
  have hrest : c.hop p inside = .rest :=
    hop_of_none (by rw [hframes, topDone])
      (by rw [current?_eq, hframes]; exact List.getElem?_eq_none hindex)
  have hfound : c.found p inside = ⟨c, 0, none⟩ := by
    rw [found, hclosed]
    exact seek_of_endsIn (.rest hrest) (hopLimit_pos p)
  exact ⟨hfound, by simp [closedIn, hclosed, hfound]⟩

variable [Scalar α] [Circular α] {id : AgentId} {view : Surroundings α} {b b' b₀ : Body α}
  {words words' words₀ : WordStream} {turn : Turn α} {n : Nat}

/-- A step from the end of the program changes nothing. -/
theorem step_of_isExhausted (h : c.isExhausted p) (id : AgentId) (view : Surroundings α)
    (b : Body α) (words : WordStream) :
    c.step p id view b words = (c, .ok ⟨b, words, ⟨none, 0, true⟩⟩) := by
  obtain ⟨hfound, hclosed⟩ := found_of_isExhausted h (view.inRegion b.position)
  rw [step_of_action?_eq_none (by rw [hfound]), hclosed, hfound, h]
  rfl

/-- A step of a program in which all loops have a number of passes takes a tick of what is left
of it, or comes to the end of the program, where nothing is left. -/
theorem Tracks.step_of_isCounted (hp : p.Sound) (hr : r.IsCounted)
    (h : Tracks p (view.inRegion b.position) c r)
    (hstep : c.step p id view b words = (d, .ok turn)) :
    (turn.report.executed.isSome ∧ ∃ next, next.IsCounted ∧ r.duration = next.duration + 1 ∧
      ∀ inside, Tracks p inside d next) ∨
    turn.report.executed = none ∧ r.duration = 0 ∧ d.isExhausted p ∧ turn.body = b ∧
      turn.words = words := by
  have houtcome := outcome_step p id view c b words
  rw [hstep] at houtcome
  cases houtcome with
  | executed haction hexecute =>
      obtain ⟨n, next, hfinds, -, htracks⟩ := h.acts hp haction hexecute
      rw [hr.abandon] at hfinds
      obtain ⟨hnext, htick⟩ := hfinds.takes hr
      exact .inl ⟨rfl, next, hnext, htick, htracks⟩
  | idle hnone =>
      obtain ⟨-, ⟨hexhausted, n, hfinds⟩ | ⟨hnever, -⟩⟩ := h.idle hp hnone
      · rw [hr.abandon] at hfinds
        exact .inr ⟨rfl, hfinds.takes hr, hexhausted, rfl, rfl⟩
      · obtain ⟨n, result, hfinds⟩ := hr.finds (view.inRegion b.position)
        rw [hr.abandon] at hnever
        exact absurd hfinds (hnever n result)

/-- What has become of a fresh cursor, of a body and of the random words after a number of
steps, none of which has failed, each in surroundings of its own. -/
inductive After (p : Program α) (id : AgentId) (b₀ : Body α) (words₀ : WordStream) :
    Nat → Cursor → Body α → WordStream → Prop where
  | start : After p id b₀ words₀ 0 start b₀ words₀
  | step {n : Nat} {c d : Cursor} {b : Body α} {words : WordStream} {turn : Turn α}
      (h : After p id b₀ words₀ n c b words) (view : Surroundings α)
      (hstep : c.step p id view b words = (d, .ok turn)) :
      After p id b₀ words₀ (n + 1) d turn.body turn.words

theorem After.later (h : After p id b₀ words₀ n c b words) : Body.Later b₀ b := by
  induction h with
  | start => exact .refl
  | step _ view hstep ih => exact ih.stepped (congrArg Prod.snd hstep)

/-- Each step has taken one tick of the program, as long as there were any left. -/
theorem After.tracks (hp : p.Sound) (hcounted : p.IsCounted)
    (h : After p id b₀ words₀ n c b words) :
    (∃ r, r.IsCounted ∧ r.duration + n = p.outline.duration ∧ ∀ inside, Tracks p inside c r) ∨
      p.outline.duration < n ∧ c.isExhausted p := by
  induction h with
  | start =>
      exact .inl ⟨.todo p.outline, hcounted.scriptTo _ _, rfl,
        fun inside => tracks_start hp.descends inside⟩
  | step _ view hstep ih =>
      rcases ih with ⟨r, hr, hticks, htracks⟩ | ⟨hlt, hexhausted⟩
      · rcases (htracks _).step_of_isCounted hp hr hstep with
          ⟨-, next, hnext, htick, hlater⟩ | ⟨-, hzero, hexhausted, -⟩
        · exact .inl ⟨next, hnext, by omega, hlater⟩
        · exact .inr ⟨by omega, hexhausted⟩
      · rw [step_of_isExhausted hexhausted] at hstep
        obtain ⟨rfl, -⟩ := Prod.mk.inj hstep
        exact .inr ⟨Nat.lt_succ_of_lt hlt, hexhausted⟩

/-- A program in which every loop has a number of passes, and every range sampled from has a
finite width, takes its duration. After fewer steps of a body with a heading the end has not
been reached, and the next step executes an action. After as many steps as that the next one
executes nothing and has the end reached, and from the end no step changes anything. No step
fails. -/
theorem takes_duration {events : List (Event α)} (hp : Program.ofEvents events = .ok p)
    (hcounted : p.IsCounted)
    (hbounded : ∀ node a, p.node? node = some (.action a) → a.isUnbounded = false)
    (hheading : b₀.heading.isSome) (h : After p id b₀ words₀ n c b words)
    (view : Surroundings α) :
    ∃ d turn, c.step p id view b words = (d, .ok turn) ∧
      (turn.report.executed.isSome ↔ n < p.outline.duration) ∧
      (n < p.outline.duration → c.isExhausted p = false) ∧
      (p.outline.duration ≤ n → d.isExhausted p ∧ turn.body = b ∧ turn.words = words) ∧
      (p.outline.duration < n → c.isExhausted p) ∧ (c.isExhausted p → d = c) := by
  have hprogram := (Program.sound_of_ofEvents hp).1
  have hsample : CanSample p (view.inRegion b.position) c := fun node a hdue =>
    hbounded node a (reached_of_hop (hop_found hdue)).2.2
  obtain ⟨turn, hturn⟩ := h.later.step_eq_ok hheading hsample id words
  have hstep : c.step p id view b words = ((c.step p id view b words).1, .ok turn) := by
    rw [← hturn]
  have hstill (hend : c.isExhausted p) :
      (c.step p id view b words).1 = c ∧ turn = ⟨b, words, ⟨none, 0, true⟩⟩ := by
    rw [step_of_isExhausted hend] at hturn ⊢
    exact ⟨rfl, (Except.ok.inj hturn).symm⟩
  refine ⟨_, turn, hstep, ?_⟩
  rcases h.tracks hprogram hcounted with ⟨r, hr, hticks, htracks⟩ | ⟨hlate, hend⟩
  · rcases (htracks _).step_of_isCounted hprogram hr hstep with
      ⟨hexecuted, next, -, htick, -⟩ | ⟨hidle, hzero, hend, hbody, hwords⟩
    · have hmore : c.isExhausted p = false := by
        by_contra hend
        rw [(hstill (by simpa using hend)).2] at hexecuted
        exact absurd hexecuted (by simp)
      exact ⟨iff_of_true hexecuted (by omega), fun _ => hmore, fun _ => by omega,
        fun _ => by omega, fun hend => (hstill hend).1⟩
    · exact ⟨iff_of_false (by simp [hidle]) (by omega), fun _ => by omega,
        fun _ => ⟨hend, hbody, hwords⟩, fun _ => by omega, fun hend => (hstill hend).1⟩
  · obtain ⟨hsame, rfl⟩ := hstill hend
    rw [hsame]
    exact ⟨iff_of_false (by simp) (by omega), fun _ => by omega, fun _ => ⟨hend, rfl, rfl⟩,
      fun _ => hend, fun _ => rfl⟩

/-- Two passes over a wait of no ticks and three passes of a signal take eight ticks; after the
first of them seven are left. -/
theorem takes_duration_nested :
    ∃ p : Program Whole,
      Program.ofEvents [.startTimes 2, .wait 0, .startTimes 3, .signal "x", .finish, .finish]
        = .ok p ∧
      let b := (Body.atPoint (⟨0, 0⟩ : Point Whole)).setHeading .east
      let words := WordStream.ofSeed 0
      let c : Cursor := ⟨0, [⟨3, 1, 0, true⟩], none⟩
      p.IsCounted ∧ (∀ node a, p.node? node = some (.action a) → a.isUnbounded = false) ∧
        b.heading.isSome ∧ After p ⟨1, 0⟩ b words 1 c b words ∧ p.outline.duration = 8 ∧
        ∃ d turn, c.step p ⟨1, 0⟩ (.alone []) b words = (d, .ok turn) ∧
          (turn.report.executed.isSome ↔ 1 < p.outline.duration) ∧
          (1 < p.outline.duration → c.isExhausted p = false) ∧
          (p.outline.duration ≤ 1 → d.isExhausted p ∧ turn.body = b ∧ turn.words = words) ∧
          (p.outline.duration < 1 → c.isExhausted p) ∧ (c.isExhausted p → d = c) := by
  let p : Program Whole :=
    ⟨#[.action (.wait 0), .action (.signal "x"), .block (.times 3) [1], .block (.times 2) [0, 2]],
      [3]⟩
  have hbuilt : Program.ofEvents
      [.startTimes 2, .wait 0, .startTimes 3, .signal "x", .finish, .finish] = .ok p := by decide
  refine ⟨p, hbuilt, ?_⟩
  intro b words c
  have hcounted : p.IsCounted := by
    intro id loop kids hnode
    have hid : id < 4 := Program.lt_size_of_node? hnode
    obtain rfl | rfl | rfl | rfl : id = 0 ∨ id = 1 ∨ id = 2 ∨ id = 3 := by omega
    · exact absurd hnode (by simp [p, Program.node?])
    · exact absurd hnode (by simp [p, Program.node?])
    · obtain ⟨rfl, -⟩ := Node.block.inj (Option.some.inj hnode)
      exact trivial
    · obtain ⟨rfl, -⟩ := Node.block.inj (Option.some.inj hnode)
      exact trivial
  have hfinite (x : Whole) : Scalar.isFinite x = true := rfl
  have hbounded (node : Nat) (a : Action Whole) (_ : p.node? node = some (.action a)) :
      a.isUnbounded = false :=
    List.any_eq_false.mpr fun r _ => by simp [hfinite]
  have hstep : start.step p ⟨1, 0⟩ (.alone []) b words =
      (c, .ok ⟨b, words, ⟨some (0, .wait 0), 0, false⟩⟩) := rfl
  have hafter : After p ⟨1, 0⟩ b words 1 c b words := After.start.step (.alone []) hstep
  exact ⟨hcounted, hbounded, rfl, hafter, by decide,
    takes_duration hbuilt hcounted hbounded rfl hafter (.alone [])⟩

end Cursor

end Flock
